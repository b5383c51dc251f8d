import PL0.Token

/-!
# Token streams

A sequence of tokens that is read from left to right with one token of lookahead.  At its end the current token is
`nul`, and reading on stays there.
-/

namespace PL0

/-- The tokens still to read, and how many have been read. -/
structure TokenStream where
  rest : List Token
  position : Nat
deriving DecidableEq

namespace TokenStream

def ofList (tokens : List Token) : TokenStream :=
  ⟨tokens, 0⟩

def current (stream : TokenStream) : Token :=
  stream.rest.headD .nul

def advance (stream : TokenStream) : TokenStream :=
  match stream.rest with
  | [] => stream
  | _ :: rest => ⟨rest, stream.position + 1⟩

end TokenStream

end PL0
