import ExprScript.ParseError
import ExprScript.Precedence

/-!
# Parsers

A parser reads lexemes from a cursor.  It either gives a value or fails with
one error, and on the way it may record errors that it recovered from.  It
never gives lexemes back: what it leaves is a suffix of what it was given, and
every parser carries a proof of this (`Parser.suffix`).  The proof is what lets
repetition end, and it is kept by sequencing, so nobody has to think about it
when parsers are put together.
-/

namespace ExprScript

/-- A place between two lexemes: those still to read, and the line of the one
read last.  The number of those still to read is kept, so that two places can
be compared without going through the lexemes. -/
@[ext] structure Cursor where
  rest : List Lexeme
  line : Nat
  left : Nat
  left_eq : left = rest.length

namespace Cursor

/-- The place before the first of some lexemes; its line is that of the first
lexeme, or one if there is none. -/
def start (lexemes : List Lexeme) : Cursor :=
  ⟨lexemes, (lexemes.head?.map Lexeme.line).getD 1, lexemes.length, rfl⟩

def token? (c : Cursor) : Option Token :=
  c.rest.head?.map Lexeme.token

/-- The line of the next token, or of the last one at the end of input. -/
def currentLine (c : Cursor) : Nat :=
  (c.rest.head?.map Lexeme.line).getD c.line

/-- The place after the next lexeme; the end of input stays where it is. -/
def advance (c : Cursor) : Cursor :=
  match c with
  | ⟨[], line, left, h⟩ => ⟨[], line, left, h⟩
  | ⟨l :: rest, _, left, h⟩ => ⟨rest, l.line, left - 1, by simp [h]⟩

theorem advance_rest (c : Cursor) : c.advance.rest = c.rest.tail := by
  obtain ⟨rest, line, left, h⟩ := c
  cases rest <;> rfl

theorem advance_suffix (c : Cursor) : c.advance.rest <:+ c.rest := by
  rw [advance_rest]
  exact List.tail_suffix c.rest

theorem advance_lt {c : Cursor} (h : c.rest ≠ []) : c.advance.rest.length < c.rest.length := by
  rw [advance_rest, List.length_tail]
  have := List.length_pos_iff.mpr h
  omega

end Cursor

/-- What a parser comes to: a value or an error, the errors recorded on the
way, and the place where it stopped. -/
structure Outcome (α : Type) where
  result : Except ParseError α
  recorded : List ParseError
  next : Cursor

@[ext] structure Parser (α : Type) where
  run : Cursor → Outcome α
  suffix : ∀ c, (run c).next.rest <:+ c.rest

namespace Parser

variable {α β : Type}

/-- A parser never has more lexemes left than it was given. -/
theorem length_le (p : Parser α) (c : Cursor) :
    (p.run c).next.rest.length ≤ c.rest.length :=
  (p.suffix c).length_le

def succeed (a : α) : Parser α where
  run c := ⟨.ok a, [], c⟩
  suffix _ := List.suffix_refl _

/-- What follows an outcome: an error is handed on, a value goes to the next
parser, which starts where the first one stopped. -/
def followedBy (o : Outcome α) (f : α → Parser β) : Outcome β :=
  match o.result with
  | .error e => ⟨.error e, o.recorded, o.next⟩
  | .ok a =>
    let o' := (f a).run o.next
    ⟨o'.result, o.recorded ++ o'.recorded, o'.next⟩

theorem followedBy_suffix (o : Outcome α) (f : α → Parser β) :
    (followedBy o f).next.rest <:+ o.next.rest := by
  unfold followedBy
  split
  · exact List.suffix_refl _
  · next a _ => exact (f a).suffix o.next

def andThen (p : Parser α) (f : α → Parser β) : Parser β where
  run c := followedBy (p.run c) f
  suffix c := (followedBy_suffix (p.run c) f).trans (p.suffix c)

instance : Monad Parser where
  pure := succeed
  bind := andThen

theorem run_pure (a : α) (c : Cursor) : (pure a : Parser α).run c = ⟨.ok a, [], c⟩ := rfl

theorem run_bind (p : Parser α) (f : α → Parser β) (c : Cursor) :
    (p >>= f).run c = followedBy (p.run c) f := rfl

theorem followedBy_of_error {o : Outcome α} {e : ParseError} (h : o.result = .error e)
    (f : α → Parser β) : followedBy o f = ⟨.error e, o.recorded, o.next⟩ := by
  simp [followedBy, h]

theorem followedBy_of_ok {o : Outcome α} {a : α} (h : o.result = .ok a) (f : α → Parser β) :
    followedBy o f = ⟨((f a).run o.next).result, o.recorded ++ ((f a).run o.next).recorded,
      ((f a).run o.next).next⟩ := by
  simp [followedBy, h]

/-- Sequencing is associative: the errors recorded on the way are only put
together in another order. -/
theorem followedBy_followedBy {γ : Type} (o : Outcome α) (f : α → Parser β) (g : β → Parser γ) :
    followedBy (followedBy o f) g = followedBy o fun a => f a >>= g := by
  cases hr : o.result with
  | error e => simp [followedBy, hr]
  | ok a =>
    rw [followedBy_of_ok hr, followedBy_of_ok hr, run_bind]
    cases hs : ((f a).run o.next).result with
    | error e => simp [followedBy, hs]
    | ok b => simp [followedBy, hs]

theorem id_map_run (p : Parser α) : id <$> p = p := by
  ext c : 2
  show followedBy (p.run c) (fun a => pure a) = p.run c
  cases hr : (p.run c).result with
  | error e => rw [followedBy_of_error hr, ← hr]
  | ok a => rw [followedBy_of_ok hr, run_pure, ← hr, List.append_nil]

instance : LawfulMonad Parser :=
  LawfulMonad.mk' Parser id_map_run (fun _ _ => rfl) fun p f g => by
    ext c : 2
    exact followedBy_followedBy (p.run c) f g

def currentLine : Parser Nat where
  run c := ⟨.ok c.currentLine, [], c⟩
  suffix _ := List.suffix_refl _

/-- The next token, which stays unread. -/
def peek : Parser (Option Token) where
  run c := ⟨.ok c.token?, [], c⟩
  suffix _ := List.suffix_refl _

theorem run_currentLine_bind (f : Nat → Parser α) (c : Cursor) :
    (currentLine >>= f).run c = (f c.currentLine).run c := rfl

theorem run_peek_bind (f : Option Token → Parser α) (c : Cursor) :
    (peek >>= f).run c = (f c.token?).run c := rfl

def failAt (e : Cursor → ParseError) : Parser α where
  run c := ⟨.error (e c), [], c⟩
  suffix _ := List.suffix_refl _

def fail (e : ParseError) : Parser α :=
  failAt fun _ => e

def advance : Parser Unit where
  run c := ⟨.ok (), [], c.advance⟩
  suffix c := c.advance_suffix

/-- Reads one lexeme and gives what `f` makes of its token, with its line.  A
token that `f` does not know is read too, and is an error. -/
def accept (expected : Expectation) (f : Token → Option α) : Parser (α × Nat) where
  run c :=
    match c.rest with
    | [] => ⟨.error (.unexpectedEnd expected c.line), [], c⟩
    | l :: _ =>
      match f l.token with
      | some a => ⟨.ok (a, l.line), [], c.advance⟩
      | none => ⟨.error (.unexpectedToken expected l.token l.line), [], c.advance⟩
  suffix c := by
    split
    · exact List.suffix_refl _
    · split <;> exact c.advance_suffix

/-- Each success of a parser has read at least one lexeme. -/
def Reads (p : Parser α) : Prop :=
  ∀ c a, (p.run c).result = .ok a → (p.run c).next.rest.length < c.rest.length

theorem accept_reads (expected : Expectation) (f : Token → Option α) :
    (accept expected f).Reads := by
  intro c a h
  cases hc : c.rest with
  | nil => simp [accept, hc] at h
  | cons l rest =>
    cases hf : f l.token with
    | none => simp [accept, hc, hf] at h
    | some b => simp [accept, hc, hf, Cursor.advance_rest]

/-- What has read a lexeme has still read it when another parser follows. -/
theorem Reads.bind {p : Parser α} (hp : p.Reads) (f : α → Parser β) : (p >>= f).Reads := by
  intro c b h
  rw [run_bind] at h ⊢
  cases hr : (p.run c).result with
  | error e => simp [followedBy, hr] at h
  | ok a => exact Nat.lt_of_le_of_lt (followedBy_suffix _ f).length_le (hp c a hr)

def expect (token : Token) : Parser Nat := do
  let (_, line) ← accept (.token token) fun t => if t = token then some () else none
  return line

/-- Reads the given token if it is next, and tells whether it was. -/
def optional (token : Token) : Parser Bool := do
  if (← peek) = some token then
    advance
    return true
  else
    return false

def identifier : Parser Identifier := do
  let (name, line) ← accept .identifier Token.identifier?
  return ⟨name, line⟩

end Parser

end ExprScript
