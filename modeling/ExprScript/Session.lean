import ExprScript.Eval

/-!
# Sessions

A session evaluates program texts one after the other; each sees what the ones
before it have bound.  A session stands in one context and can step into a
context whose environment is inside that of the present one, and out again.
-/

namespace ExprScript

/-- A heap, the present context and those around it. -/
structure Session where
  heap : Heap
  current : Context
  outer : List Context

namespace Session

def start : Session :=
  let (context, heap) := Context.fresh.run .empty
  ⟨heap, context, []⟩

def run {α : Type} (s : Session) (x : Context → Eval α) : α × Session :=
  let (a, heap) := (x s.current).run s.heap
  (a, { s with heap := heap })

def evaluateSource (s : Session) (source : String) :
    Except (List ParseError) Value × Session :=
  s.run fun c => c.evaluateSource source

/-- Evaluates program texts one after the other: the answers to them, and the
session after the last one. -/
def evaluateAll (s : Session) :
    List String → List (Except (List ParseError) Value) × Session
  | [] => ([], s)
  | source :: sources =>
    let (answer, s) := s.evaluateSource source
    let (answers, s) := s.evaluateAll sources
    (answer :: answers, s)

def get? (s : Session) (name : String) : Option Value :=
  s.heap.lookup s.current.env name

def set (s : Session) (name : String) (v : Value) : Session :=
  { s with heap := s.heap.insert s.current.env name v }

/-- Whether two names are bound to equal values, if both are bound. -/
def same? (s : Session) (left right : String) : Option Bool := do
  let v ← s.get? left
  let w ← s.get? right
  return v.same w

def function? (s : Session) (name : String) : Option Closure :=
  match s.get? name with
  | some (.function f) => some f
  | _ => none

/-- The value of a name as seen from inside a function. -/
def captured? (s : Session) (f name : String) : Option Value := do
  let closure ← s.function? f
  s.heap.lookup closure.env name

/-- Steps into a new environment inside the present one. -/
def enter (s : Session) : Session :=
  let (env, heap) := s.heap.addInside s.current.env []
  ⟨heap, .ofEnv env, s.current :: s.outer⟩

/-- Steps out into the context around the present one, if there is one. -/
def leave (s : Session) : Session :=
  match s.outer with
  | [] => s
  | c :: outer => { s with current := c, outer := outer }

end Session

end ExprScript
