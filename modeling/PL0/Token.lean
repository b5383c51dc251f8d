/-!
# Tokens of PL/0

The terminal symbols of the language, with the numbers that lexeme lists use for them (`Token.code`) and the
reserved words (`Token.keyword?`).  Names and numbers carry their value, so that two tokens are equal exactly when
they are the same symbol with the same value.
-/

namespace PL0

/-- A terminal symbol.  `nul` stands for the end of the input. -/
inductive Token where
  | nul
  | ident (name : String)
  | number (value : Int32)
  | plus
  | minus
  | times
  | slash
  | oddSym
  | eql
  | neq
  | lss
  | leq
  | gtr
  | geq
  | lparen
  | rparen
  | comma
  | semicolon
  | period
  | becomes
  | beginSym
  | endSym
  | ifSym
  | thenSym
  | whileSym
  | doSym
  | callSym
  | constSym
  | varSym
  | procSym
  | writeSym
  | readSym
  | elseSym
deriving DecidableEq

/-- The number of a token's kind. -/
def Token.code : Token → Nat
  | .nul => 1
  | .ident _ => 2
  | .number _ => 3
  | .plus => 4
  | .minus => 5
  | .times => 6
  | .slash => 7
  | .oddSym => 8
  | .eql => 9
  | .neq => 10
  | .lss => 11
  | .leq => 12
  | .gtr => 13
  | .geq => 14
  | .lparen => 15
  | .rparen => 16
  | .comma => 17
  | .semicolon => 18
  | .period => 19
  | .becomes => 20
  | .beginSym => 21
  | .endSym => 22
  | .ifSym => 23
  | .thenSym => 24
  | .whileSym => 25
  | .doSym => 26
  | .callSym => 27
  | .constSym => 28
  | .varSym => 29
  | .procSym => 30
  | .writeSym => 31
  | .readSym => 32
  | .elseSym => 33

/-- The token with a given number, for the kinds that carry no value. -/
def Token.ofCode? : Nat → Option Token
  | 1 => some .nul
  | 4 => some .plus
  | 5 => some .minus
  | 6 => some .times
  | 7 => some .slash
  | 8 => some .oddSym
  | 9 => some .eql
  | 10 => some .neq
  | 11 => some .lss
  | 12 => some .leq
  | 13 => some .gtr
  | 14 => some .geq
  | 15 => some .lparen
  | 16 => some .rparen
  | 17 => some .comma
  | 18 => some .semicolon
  | 19 => some .period
  | 20 => some .becomes
  | 21 => some .beginSym
  | 22 => some .endSym
  | 23 => some .ifSym
  | 24 => some .thenSym
  | 25 => some .whileSym
  | 26 => some .doSym
  | 27 => some .callSym
  | 28 => some .constSym
  | 29 => some .varSym
  | 30 => some .procSym
  | 31 => some .writeSym
  | 32 => some .readSym
  | 33 => some .elseSym
  | _ => none

/-- The reserved words.  They are written in lower case only. -/
def reservedWords : List (String × Token) :=
  [("odd", .oddSym), ("begin", .beginSym), ("end", .endSym), ("if", .ifSym), ("then", .thenSym),
    ("while", .whileSym), ("do", .doSym), ("call", .callSym), ("const", .constSym), ("var", .varSym),
    ("procedure", .procSym), ("write", .writeSym), ("read", .readSym), ("else", .elseSym)]

/-- The token of a reserved word. -/
def Token.keyword? (word : String) : Option Token :=
  reservedWords.lookup word

/-- The token of a word: a reserved word, or else a name. -/
def Token.ofWord (word : String) : Token :=
  (Token.keyword? word).getD (.ident word)

/-- A numbered kind without a value is found again by its number. -/
theorem Token.code_of_ofCode? {n : Nat} {t : Token} (h : Token.ofCode? n = some t) : t.code = n := by
  unfold Token.ofCode? at h
  split at h <;> simp_all <;> subst h <;> rfl

end PL0
