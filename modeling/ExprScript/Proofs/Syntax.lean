import ExprScript.Syntax.Text

/-!
# Trees up to line numbers

A line number tells where a node stands in the program and takes no part in what it
means.  `Expr.unlined` takes the line numbers of a tree off, so that two trees are the
same up to line numbers when `e.unlined = e'.unlined`; their written forms are equal
then (`Expr.text_unlined`).

`Expr.innerStatements` lists the statements in a tree, those in the blocks of functions and
conditionals with them.

`Expr.Names P` says that all names in a tree have the property `P`: those that are
read, bound by a statement or bound as parameters.
-/

namespace ExprScript

/-! ### Without line numbers -/

def Identifier.unlined (id : Identifier) : Identifier :=
  ⟨id.name, 0⟩

mutual

def Expr.unlined : Expr → Expr
  | .identifier id => .identifier id.unlined
  | .integer n _ => .integer n 0
  | .boolean b _ => .boolean b 0
  | .prefixed op operand _ => .prefixed op operand.unlined 0
  | .infixed left op right _ => .infixed left.unlined op right.unlined 0
  | .conditional condition consequence alternative _ =>
    .conditional condition.unlined consequence.unlined (Block.unlinedOption alternative) 0
  | .function parameters body _ => .function (parameters.map Identifier.unlined) body.unlined 0
  | .call callee arguments _ => .call callee.unlined (Expr.unlinedAll arguments) 0

def Expr.unlinedAll : List Expr → List Expr
  | [] => []
  | e :: es => e.unlined :: Expr.unlinedAll es

def Stmt.unlined : Stmt → Stmt
  | .bind target value _ => .bind target.unlined value.unlined 0
  | .ret value _ => .ret value.unlined 0
  | .expr value _ => .expr value.unlined 0
  | .block body => .block body.unlined

def Stmt.unlinedAll : List Stmt → List Stmt
  | [] => []
  | s :: ss => s.unlined :: Stmt.unlinedAll ss

def Block.unlined : Block → Block
  | .mk statements _ => .mk (Stmt.unlinedAll statements) 0

def Block.unlinedOption : Option Block → Option Block
  | none => none
  | some b => some b.unlined

end

theorem Expr.unlinedAll_eq_map (es : List Expr) : Expr.unlinedAll es = es.map Expr.unlined := by
  induction es with
  | nil => rfl
  | cons e es ih => rw [unlinedAll, ih, List.map_cons]

theorem Stmt.unlinedAll_eq_map (ss : List Stmt) : Stmt.unlinedAll ss = ss.map Stmt.unlined := by
  induction ss with
  | nil => rfl
  | cons s ss ih => rw [unlinedAll, ih, List.map_cons]

theorem Block.unlined_statements (b : Block) :
    b.unlined.statements = Stmt.unlinedAll b.statements := by
  cases b
  rfl

/-- Names that are the same but for their lines have the same texts. -/
theorem map_name_of_unlined {ids ids' : List Identifier}
    (h : ids.map Identifier.unlined = ids'.map Identifier.unlined) :
    ids.map Identifier.name = ids'.map Identifier.name := by
  have hname : Identifier.name ∘ Identifier.unlined = Identifier.name := rfl
  rw [← hname, ← List.map_map, ← List.map_map, h]

/-! ### Written forms -/

theorem parametersText_unlined (parameters : List Identifier) :
    parametersText (parameters.map Identifier.unlined) = parametersText parameters := by
  rw [parametersText, List.map_map]
  rfl

mutual

/-- **Line numbers are not written.** -/
theorem Expr.text_unlined : ∀ e : Expr, e.unlined.text = e.text
  | .identifier id => rfl
  | .integer n _ => rfl
  | .boolean b _ => rfl
  | .prefixed op operand _ => by rw [Expr.unlined, Expr.text, operand.text_unlined, Expr.text]
  | .infixed left op right _ => by
    rw [Expr.unlined, Expr.text, left.text_unlined, right.text_unlined, Expr.text]
  | .conditional condition consequence none _ => by
    rw [Expr.unlined, Block.unlinedOption, Expr.text, condition.text_unlined,
      consequence.text_unlined, Expr.text]
  | .conditional condition consequence (some alternative) _ => by
    rw [Expr.unlined, Block.unlinedOption, Expr.text, condition.text_unlined,
      consequence.text_unlined, alternative.text_unlined, Expr.text]
  | .function parameters body _ => by
    rw [Expr.unlined, Expr.text, parametersText_unlined, body.text_unlined, Expr.text]
  | .call callee args _ => by
    rw [Expr.unlined, Expr.text, callee.text_unlined, Expr.texts_unlinedAll args, Expr.text]

theorem Expr.texts_unlinedAll : ∀ es : List Expr, Expr.texts (Expr.unlinedAll es) = Expr.texts es
  | [] => rfl
  | e :: es => by
    rw [Expr.unlinedAll, Expr.texts, e.text_unlined, Expr.texts_unlinedAll es, Expr.texts]

theorem Stmt.text_unlined : ∀ s : Stmt, s.unlined.text = s.text
  | .bind target value _ => by
    rw [Stmt.unlined, Stmt.text, value.text_unlined, Stmt.text]
    rfl
  | .ret value _ => by rw [Stmt.unlined, Stmt.text, value.text_unlined, Stmt.text]
  | .expr value _ => by rw [Stmt.unlined, Stmt.text, value.text_unlined, Stmt.text]
  | .block body => by rw [Stmt.unlined, Stmt.text, body.text_unlined, Stmt.text]

theorem Stmt.spacedText_unlinedAll :
    ∀ ss : List Stmt, Stmt.spacedText (Stmt.unlinedAll ss) = Stmt.spacedText ss
  | [] => rfl
  | s :: ss => by
    rw [Stmt.unlinedAll, Stmt.spacedText, s.text_unlined, Stmt.spacedText_unlinedAll ss,
      Stmt.spacedText]

theorem Block.text_unlined : ∀ b : Block, b.unlined.text = b.text
  | .mk ss _ => by rw [Block.unlined, Block.text, Stmt.spacedText_unlinedAll ss, Block.text]

end

theorem Block.text_eq_of_unlined {b b' : Block} (h : b.unlined = b'.unlined) :
    b.text = b'.text := by
  rw [← b.text_unlined, h, b'.text_unlined]

/-! ### Statements in a tree -/

mutual

/-- The statements in an expression, at all depths. -/
def Expr.innerStatements : Expr → List Stmt
  | .identifier _ => []
  | .integer _ _ => []
  | .boolean _ _ => []
  | .prefixed _ operand _ => operand.innerStatements
  | .infixed left _ right _ => left.innerStatements ++ right.innerStatements
  | .conditional condition consequence none _ =>
    condition.innerStatements ++ consequence.innerStatements
  | .conditional condition consequence (some alternative) _ =>
    condition.innerStatements ++ (consequence.innerStatements ++ alternative.innerStatements)
  | .function _ body _ => body.innerStatements
  | .call callee arguments _ => callee.innerStatements ++ Expr.innerStatementsAll arguments

def Expr.innerStatementsAll : List Expr → List Stmt
  | [] => []
  | e :: es => e.innerStatements ++ Expr.innerStatementsAll es

/-- A statement and those in it, at all depths. -/
def Stmt.withInner : Stmt → List Stmt
  | .bind target value line => .bind target value line :: value.innerStatements
  | .ret value line => .ret value line :: value.innerStatements
  | .expr value line => .expr value line :: value.innerStatements
  | .block body => .block body :: body.innerStatements

def Stmt.withInnerAll : List Stmt → List Stmt
  | [] => []
  | s :: ss => s.withInner ++ Stmt.withInnerAll ss

def Block.innerStatements : Block → List Stmt
  | .mk statements _ => Stmt.withInnerAll statements

end

theorem Expr.innerStatementsAll_eq (es : List Expr) :
    Expr.innerStatementsAll es = es.flatMap Expr.innerStatements := by
  induction es with
  | nil => rfl
  | cons e es ih => rw [innerStatementsAll, ih, List.flatMap_cons]

theorem Stmt.withInnerAll_eq (ss : List Stmt) :
    Stmt.withInnerAll ss = ss.flatMap Stmt.withInner := by
  induction ss with
  | nil => rfl
  | cons s ss ih => rw [withInnerAll, ih, List.flatMap_cons]

/-! ### Names -/

mutual

/-- All names in an expression have a property. -/
def Expr.Names (P : String → Prop) : Expr → Prop
  | .identifier id => P id.name
  | .integer _ _ => True
  | .boolean _ _ => True
  | .prefixed _ operand _ => operand.Names P
  | .infixed left _ right _ => left.Names P ∧ right.Names P
  | .conditional condition consequence alternative _ =>
    condition.Names P ∧ consequence.Names P ∧ Block.NamesOption P alternative
  | .function parameters body _ => (∀ id ∈ parameters, P id.name) ∧ body.Names P
  | .call callee arguments _ => callee.Names P ∧ Expr.NamesAll P arguments

def Expr.NamesAll (P : String → Prop) : List Expr → Prop
  | [] => True
  | e :: es => e.Names P ∧ Expr.NamesAll P es

def Stmt.Names (P : String → Prop) : Stmt → Prop
  | .bind target value _ => P target.name ∧ value.Names P
  | .ret value _ => value.Names P
  | .expr value _ => value.Names P
  | .block body => body.Names P

def Stmt.NamesAll (P : String → Prop) : List Stmt → Prop
  | [] => True
  | s :: ss => s.Names P ∧ Stmt.NamesAll P ss

def Block.Names (P : String → Prop) : Block → Prop
  | .mk statements _ => Stmt.NamesAll P statements

def Block.NamesOption (P : String → Prop) : Option Block → Prop
  | none => True
  | some b => b.Names P

end

theorem Block.names_iff {P : String → Prop} {b : Block} :
    b.Names P ↔ Stmt.NamesAll P b.statements := by
  cases b
  rfl

section
variable (P : String → Prop) [DecidablePred P]

mutual

def Expr.decideNames : (e : Expr) → Decidable (e.Names P)
  | .identifier id => inferInstanceAs (Decidable (P id.name))
  | .integer _ _ => isTrue trivial
  | .boolean _ _ => isTrue trivial
  | .prefixed _ operand _ => operand.decideNames
  | .infixed left _ right _ => @instDecidableAnd _ _ left.decideNames right.decideNames
  | .conditional condition consequence none _ =>
    @instDecidableAnd _ _ condition.decideNames
      (@instDecidableAnd _ _ consequence.decideNames (isTrue trivial))
  | .conditional condition consequence (some alternative) _ =>
    @instDecidableAnd _ _ condition.decideNames
      (@instDecidableAnd _ _ consequence.decideNames alternative.decideNames)
  | .function _ body _ => @instDecidableAnd _ _ inferInstance body.decideNames
  | .call callee args _ => @instDecidableAnd _ _ callee.decideNames (Expr.decideNamesAll args)

def Expr.decideNamesAll : (es : List Expr) → Decidable (Expr.NamesAll P es)
  | [] => isTrue trivial
  | e :: es => @instDecidableAnd _ _ e.decideNames (Expr.decideNamesAll es)

def Stmt.decideNames : (s : Stmt) → Decidable (s.Names P)
  | .bind _ value _ => @instDecidableAnd _ _ inferInstance value.decideNames
  | .ret value _ => value.decideNames
  | .expr value _ => value.decideNames
  | .block body => body.decideNames

def Stmt.decideNamesAll : (ss : List Stmt) → Decidable (Stmt.NamesAll P ss)
  | [] => isTrue trivial
  | s :: ss => @instDecidableAnd _ _ s.decideNames (Stmt.decideNamesAll ss)

def Block.decideNames : (b : Block) → Decidable (b.Names P)
  | .mk ss _ => Stmt.decideNamesAll ss

end

instance (b : Block) : Decidable (b.Names P) :=
  b.decideNames P

instance (ss : List Stmt) : Decidable (Stmt.NamesAll P ss) :=
  Stmt.decideNamesAll P ss

end

mutual

theorem Expr.names_of_forall {P : String → Prop} (hP : ∀ name, P name) :
    ∀ e : Expr, e.Names P
  | .identifier id => hP id.name
  | .integer _ _ => trivial
  | .boolean _ _ => trivial
  | .prefixed _ operand _ => Expr.names_of_forall hP operand
  | .infixed left _ right _ => ⟨Expr.names_of_forall hP left, Expr.names_of_forall hP right⟩
  | .conditional condition consequence none _ =>
    ⟨Expr.names_of_forall hP condition, Block.names_of_forall hP consequence, trivial⟩
  | .conditional condition consequence (some alternative) _ =>
    ⟨Expr.names_of_forall hP condition, Block.names_of_forall hP consequence,
      Block.names_of_forall hP alternative⟩
  | .function _ body _ => ⟨fun id _ => hP id.name, Block.names_of_forall hP body⟩
  | .call callee args _ => ⟨Expr.names_of_forall hP callee, Expr.namesAll_of_forall hP args⟩

theorem Expr.namesAll_of_forall {P : String → Prop} (hP : ∀ name, P name) :
    ∀ es : List Expr, Expr.NamesAll P es
  | [] => trivial
  | e :: es => ⟨Expr.names_of_forall hP e, Expr.namesAll_of_forall hP es⟩

theorem Stmt.names_of_forall {P : String → Prop} (hP : ∀ name, P name) :
    ∀ s : Stmt, s.Names P
  | .bind target value _ => ⟨hP target.name, Expr.names_of_forall hP value⟩
  | .ret value _ => Expr.names_of_forall hP value
  | .expr value _ => Expr.names_of_forall hP value
  | .block body => Block.names_of_forall hP body

theorem Stmt.namesAll_of_forall {P : String → Prop} (hP : ∀ name, P name) :
    ∀ ss : List Stmt, Stmt.NamesAll P ss
  | [] => trivial
  | s :: ss => ⟨Stmt.names_of_forall hP s, Stmt.namesAll_of_forall hP ss⟩

theorem Block.names_of_forall {P : String → Prop} (hP : ∀ name, P name) :
    ∀ b : Block, b.Names P
  | .mk ss _ => Stmt.namesAll_of_forall hP ss

end

end ExprScript
