import Munch.Lexer

/-!
# Sessions

A session has several lexers over one source. Every step names the lexer that it acts on.
-/
namespace Munch

structure Session where
  lexers : List Lexer
deriving DecidableEq, Repr

/-- What a step asks of a lexer. -/
inductive Query
  | next
  | drain
  | source
deriving DecidableEq, Repr

inductive Answer
  | token (outcome : Except Diagnostic Token)
  | tokens (outcome : Except Diagnostic (List Token))
  | source (s : Bytes)

namespace Lexer

def answer (l : Lexer) : Query → Answer × Lexer
  | .next => (.token l.next.1, l.next.2)
  | .drain => (.tokens l.drain.1, l.drain.2)
  | .source => (.source l.source, l)

end Lexer

namespace Session

/-- A session of `count` lexers at the beginning of a source. -/
def start (source : Bytes) (count : Nat) : Session :=
  ⟨List.replicate count (.ofSource source)⟩

/-- The answer of a lexer, if there is one of this number. -/
def step (session : Session) (query : Query) (index : Nat) : Option Answer × Session :=
  match session.lexers[index]? with
  | none => (none, session)
  | some lexer => (some (lexer.answer query).1, ⟨session.lexers.set index (lexer.answer query).2⟩)

/-- The answers to a list of steps, in order. -/
def run (session : Session) : List (Query × Nat) → List (Option Answer)
  | [] => []
  | (query, index) :: steps =>
    (session.step query index).1 :: (session.step query index).2.run steps

end Session
end Munch
