import ExprScript.Proofs.Syntax.Spelling

/-!
# Trees whose written form can be read again

A written form puts parentheses around operations and nothing else, and writes no
terminator after an expression that is a statement.  So a condition is in parentheses only
if it is an operation, and an expression runs into the next one if that begins with a
parenthesis, as the arguments of a call do.  `Expr.Rereadable` says that neither happens in
a tree, at any depth.

* `Expr.derives`, `Stmt.derives`, `Block.derives`: the grammar describes the written form of
  such a tree.
-/

namespace ExprScript

def Expr.isOperation : Expr → Bool
  | .prefixed _ _ _ => true
  | .infixed _ _ _ _ => true
  | _ => false

/-- Both the statement and the next one are expressions, and the written form of the next
one begins with a parenthesis. -/
def Stmt.RunsInto : Stmt → List Stmt → Prop
  | .expr _ _, .expr next _ :: _ => next.text.toList.head? = some '('
  | _, _ => False

mutual

/-- Every condition in the expression is an operation, and no statement of a block in it
runs into the next one. -/
def Expr.Rereadable : Expr → Prop
  | .identifier _ => True
  | .integer _ _ => True
  | .boolean _ _ => True
  | .prefixed _ operand _ => operand.Rereadable
  | .infixed left _ right _ => left.Rereadable ∧ right.Rereadable
  | .conditional condition consequence alternative _ =>
    (condition.isOperation = true ∧ condition.Rereadable) ∧
      consequence.Rereadable ∧ Block.RereadableOption alternative
  | .function _ body _ => body.Rereadable
  | .call callee arguments _ => callee.Rereadable ∧ Expr.RereadableAll arguments

def Expr.RereadableAll : List Expr → Prop
  | [] => True
  | e :: es => e.Rereadable ∧ Expr.RereadableAll es

def Stmt.Rereadable : Stmt → Prop
  | .bind _ value _ => value.Rereadable
  | .ret value _ => value.Rereadable
  | .expr value _ => value.Rereadable
  | .block body => body.Rereadable

/-- The same for the statements of a block, none of which runs into the next one. -/
def Stmt.RereadableAll : List Stmt → Prop
  | [] => True
  | s :: ss => s.Rereadable ∧ ¬ s.RunsInto ss ∧ Stmt.RereadableAll ss

def Block.Rereadable : Block → Prop
  | .mk statements _ => Stmt.RereadableAll statements

def Block.RereadableOption : Option Block → Prop
  | none => True
  | some b => b.Rereadable

end

/-! ### Deciding whether a tree can be read again -/

instance (s : Stmt) (ss : List Stmt) : Decidable (s.RunsInto ss) :=
  match s, ss with
  | .expr _ _, .expr next _ :: _ => inferInstanceAs (Decidable (next.text.toList.head? = some '('))
  | .expr _ _, [] => isFalse id
  | .expr _ _, .bind _ _ _ :: _ => isFalse id
  | .expr _ _, .ret _ _ :: _ => isFalse id
  | .expr _ _, .block _ :: _ => isFalse id
  | .bind _ _ _, _ => isFalse id
  | .ret _ _, _ => isFalse id
  | .block _, _ => isFalse id

mutual

def Expr.decideRereadable : (e : Expr) → Decidable e.Rereadable
  | .identifier _ => isTrue trivial
  | .integer _ _ => isTrue trivial
  | .boolean _ _ => isTrue trivial
  | .prefixed _ operand _ => operand.decideRereadable
  | .infixed left _ right _ =>
    @instDecidableAnd _ _ left.decideRereadable right.decideRereadable
  | .conditional condition consequence none _ =>
    @instDecidableAnd _ _ (@instDecidableAnd _ _ inferInstance condition.decideRereadable)
      (@instDecidableAnd _ _ consequence.decideRereadable (isTrue trivial))
  | .conditional condition consequence (some alternative) _ =>
    @instDecidableAnd _ _ (@instDecidableAnd _ _ inferInstance condition.decideRereadable)
      (@instDecidableAnd _ _ consequence.decideRereadable alternative.decideRereadable)
  | .function _ body _ => body.decideRereadable
  | .call callee args _ =>
    @instDecidableAnd _ _ callee.decideRereadable (Expr.decideRereadableAll args)

def Expr.decideRereadableAll : (es : List Expr) → Decidable (Expr.RereadableAll es)
  | [] => isTrue trivial
  | e :: es => @instDecidableAnd _ _ e.decideRereadable (Expr.decideRereadableAll es)

def Stmt.decideRereadable : (s : Stmt) → Decidable s.Rereadable
  | .bind _ value _ => value.decideRereadable
  | .ret value _ => value.decideRereadable
  | .expr value _ => value.decideRereadable
  | .block body => body.decideRereadable

def Stmt.decideRereadableAll : (ss : List Stmt) → Decidable (Stmt.RereadableAll ss)
  | [] => isTrue trivial
  | s :: ss => @instDecidableAnd _ _ s.decideRereadable
    (@instDecidableAnd _ _ inferInstance (Stmt.decideRereadableAll ss))

def Block.decideRereadable : (b : Block) → Decidable b.Rereadable
  | .mk ss _ => Stmt.decideRereadableAll ss

end

instance (s : Stmt) : Decidable s.Rereadable :=
  s.decideRereadable

/-! ### Line numbers -/

theorem Expr.isOperation_unlined (e : Expr) : e.unlined.isOperation = e.isOperation := by
  cases e <;> rfl

theorem Stmt.runsInto_unlined (s : Stmt) (ss : List Stmt) :
    s.unlined.RunsInto (Stmt.unlinedAll ss) ↔ s.RunsInto ss := by
  cases s with
  | expr value line =>
    cases ss with
    | nil => exact Iff.rfl
    | cons next ss =>
      cases next with
      | expr value' line' =>
        show value'.unlined.text.toList.head? = _ ↔ _
        rw [Expr.text_unlined]
        exact Iff.rfl
      | _ => exact Iff.rfl
  | _ => exact Iff.rfl

mutual

theorem Expr.rereadable_unlined : ∀ e : Expr, e.unlined.Rereadable ↔ e.Rereadable
  | .identifier _ => Iff.rfl
  | .integer _ _ => Iff.rfl
  | .boolean _ _ => Iff.rfl
  | .prefixed _ operand _ => operand.rereadable_unlined
  | .infixed left _ right _ => and_congr left.rereadable_unlined right.rereadable_unlined
  | .conditional condition consequence none _ => by
    rw [Expr.unlined, Expr.Rereadable, condition.isOperation_unlined, condition.rereadable_unlined,
      consequence.rereadable_unlined]
    exact Iff.rfl
  | .conditional condition consequence (some alternative) _ => by
    rw [Expr.unlined, Expr.Rereadable, condition.isOperation_unlined, condition.rereadable_unlined,
      consequence.rereadable_unlined]
    exact and_congr_right' (and_congr_right' alternative.rereadable_unlined)
  | .function _ body _ => body.rereadable_unlined
  | .call callee args _ => and_congr callee.rereadable_unlined (Expr.rereadableAll_unlinedAll args)

theorem Expr.rereadableAll_unlinedAll : ∀ es : List Expr,
    Expr.RereadableAll (Expr.unlinedAll es) ↔ Expr.RereadableAll es
  | [] => Iff.rfl
  | e :: es => and_congr e.rereadable_unlined (Expr.rereadableAll_unlinedAll es)

theorem Stmt.rereadable_unlined : ∀ s : Stmt, s.unlined.Rereadable ↔ s.Rereadable
  | .bind _ value _ => value.rereadable_unlined
  | .ret value _ => value.rereadable_unlined
  | .expr value _ => value.rereadable_unlined
  | .block body => body.rereadable_unlined

theorem Stmt.rereadableAll_unlinedAll : ∀ ss : List Stmt,
    Stmt.RereadableAll (Stmt.unlinedAll ss) ↔ Stmt.RereadableAll ss
  | [] => Iff.rfl
  | s :: ss => and_congr s.rereadable_unlined
      (and_congr (not_congr (s.runsInto_unlined ss)) (Stmt.rereadableAll_unlinedAll ss))

theorem Block.rereadable_unlined : ∀ b : Block, b.unlined.Rereadable ↔ b.Rereadable
  | .mk ss _ => Stmt.rereadableAll_unlinedAll ss

end

/-! ### Tokens as lexemes -/

def lexemesOf (ts : List Token) : List Lexeme :=
  ts.map fun t => ⟨t, 0⟩

@[simp] theorem lexemesOf_nil : lexemesOf [] = [] := rfl

@[simp] theorem lexemesOf_cons (t : Token) (ts : List Token) :
    lexemesOf (t :: ts) = ⟨t, 0⟩ :: lexemesOf ts := rfl

@[simp] theorem lexemesOf_append (ts us : List Token) :
    lexemesOf (ts ++ us) = lexemesOf ts ++ lexemesOf us :=
  List.map_append

/-! ### Parts of a written form -/

/-- The tokens of an expression without the parentheses of an operation. -/
def Expr.bareTokens : Expr → List Token
  | .prefixed op operand _ => op.sign :: operand.tokens
  | .infixed left op right _ => left.tokens ++ op.sign :: right.tokens
  | e => e.tokens

/-- The level on which an expression is when these parentheses are left out. -/
def Expr.bareLevel : Expr → Precedence
  | .prefixed _ _ _ => .operand
  | .infixed _ op _ _ => op.level
  | _ => .call

theorem Expr.equals_le_bareLevel (e : Expr) : .equals ≤ e.bareLevel := by
  have hcall : Precedence.equals ≤ .call := by decide
  have hoperand : Precedence.equals ≤ .operand := by decide
  have hlevel (op : InfixOp) : Precedence.equals ≤ op.level := by cases op <;> decide
  cases e with
  | prefixed op operand line => exact hoperand
  | infixed left op right line => exact hlevel op
  | _ => exact hcall

theorem Expr.tokens_of_isOperation {e : Expr} (h : e.isOperation = true) :
    e.tokens = .leftParen :: (e.bareTokens ++ [.rightParen]) := by
  cases e with
  | prefixed op operand line => rfl
  | infixed left op right line => simp [tokens, bareTokens]
  | _ => simp [isOperation] at h

theorem Expr.bare_of_not_isOperation {e : Expr} (h : e.isOperation = false) :
    e.bareTokens = e.tokens ∧ e.bareLevel = .call := by
  cases e with
  | prefixed op operand line => simp [isOperation] at h
  | infixed left op right line => simp [isOperation] at h
  | _ => exact ⟨rfl, rfl⟩

/-- The first token of a written form is a parenthesis or continues no expression. -/
theorem Expr.tokens_starts : ∀ e : Expr, ∃ t ts, e.tokens = t :: ts ∧
    if e.opens then t = .leftParen else t.continueForm? = none
  | .identifier _ => ⟨_, _, rfl, rfl⟩
  | .integer _ _ => ⟨_, _, rfl, rfl⟩
  | .boolean true _ => ⟨_, _, rfl, rfl⟩
  | .boolean false _ => ⟨_, _, rfl, rfl⟩
  | .prefixed _ _ _ => ⟨_, _, rfl, rfl⟩
  | .infixed _ _ _ _ => ⟨_, _, rfl, rfl⟩
  | .conditional _ _ none _ => ⟨_, _, rfl, rfl⟩
  | .conditional _ _ (some _) _ => ⟨_, _, rfl, rfl⟩
  | .function _ _ _ => ⟨_, _, rfl, rfl⟩
  | .call callee _ _ => by
    obtain ⟨t, ts, hts, ht⟩ := callee.tokens_starts
    exact ⟨t, _, by rw [Expr.tokens, hts]; rfl, ht⟩

def Stmt.core : Stmt → List Token
  | .bind target value _ => .letWord :: .identifier target.name :: .assign :: value.tokens
  | .ret value _ => .returnWord :: value.tokens
  | .expr value _ => value.tokens
  | .block body => body.tokens

def Stmt.terminator : Stmt → List Token
  | .bind _ _ _ => [.semicolon]
  | .ret _ _ => [.semicolon]
  | .expr _ _ => []
  | .block _ => []

theorem Stmt.tokens_eq (s : Stmt) : s.tokens = s.core ++ s.terminator := by
  cases s <;> simp [tokens, core, terminator]

theorem Stmt.tokensAll_cons (s : Stmt) (ss : List Stmt) (us : List Token) :
    Stmt.tokensAll (s :: ss) ++ us = s.core ++ (s.terminator ++ (Stmt.tokensAll ss ++ us)) := by
  rw [tokensAll, tokens_eq, List.append_assoc, List.append_assoc]

/-! ### Derivations -/

namespace Derives

/-- Parentheses around an operation make it an operand. -/
theorem parenthesized {e : Expr}
    (h : ∀ rest, Derives (.expr e.bareLevel e.unlined) (lexemesOf e.bareTokens ++ rest) rest)
    (rest : List Lexeme) : Derives (.expr .call e.unlined) (lexemesOf e.tokens ++ rest) rest := by
  cases ho : e.isOperation with
  | true =>
    have hbare := of_le e.equals_le_bareLevel (h (⟨.rightParen, 0⟩ :: rest))
    rw [Expr.tokens_of_isOperation ho]
    simpa using group hbare
  | false =>
    obtain ⟨htokens, hlevel⟩ := Expr.bare_of_not_isOperation ho
    have hbare := h rest
    rwa [htokens, hlevel] at hbare

theorem commaSeparated {α β : Type} {item : β → List Lexeme → List Lexeme → Prop} {f : α → β}
    {tokens : α → List Token} (rest : List Lexeme) : ∀ as : List α,
    (∀ a ∈ as, ∀ rest, item (f a) (lexemesOf (tokens a) ++ rest) rest) →
    CommaSeparated item .rightParen (as.map f)
      (lexemesOf (commaTokens (as.map tokens)) ++ ⟨.rightParen, 0⟩ :: rest) rest
  | [], _ => .none
  | [a], h => .last (h a List.mem_cons_self _)
  | a :: b :: as, h => by
    obtain ⟨ha, hbs⟩ := List.forall_mem_cons.mp h
    have others := commaSeparated rest (b :: as) hbs
    have first := ha (⟨.comma, 0⟩ :: (lexemesOf (commaTokens ((b :: as).map tokens)) ++
      ⟨.rightParen, 0⟩ :: rest))
    simpa [commaTokens] using CommaSeparated.more first others

end Derives

theorem not_continues_cons {l : Lexeme} (hl : l.token.continueForm? = none) (ts : List Lexeme) :
    ¬ Continues (l :: ts) := by
  rintro ⟨l', tl, hcons, hc⟩
  obtain ⟨rfl, -⟩ := List.cons.inj hcons
  rcases hc with hc | ⟨op, hc⟩
  · simp [hc, Token.continueForm?] at hl
  · simp [hc, Token.continueForm?_sign] at hl

/-- An expression statement that does not run into the next statement ends where that
begins. -/
theorem Stmt.not_continues {value : Expr} {line : Nat} {ss : List Stmt} (hs : Stmt.SpelledAll ss)
    (hr : ¬ (Stmt.expr value line).RunsInto ss) {rest : List Lexeme} (hrest : ¬ Continues rest) :
    ¬ Continues (lexemesOf (Stmt.tokensAll ss) ++ rest) := by
  have hfirst {t : Token} {ts : List Token} (ht : t.continueForm? = none)
      (hts : Stmt.tokensAll ss = t :: ts) :
      ¬ Continues (lexemesOf (Stmt.tokensAll ss) ++ rest) := by
    rw [hts]
    exact not_continues_cons ht _
  cases ss with
  | nil => exact hrest
  | cons next ss =>
    cases next with
    | bind target value' line' => exact hfirst rfl rfl
    | ret value' line' => exact hfirst rfl rfl
    | block body => exact hs.1.elim
    | expr value' line' =>
      obtain ⟨t, ts, hts, ht⟩ := value'.tokens_starts
      have hopens : ¬ value'.opens = true := fun ho => hr ((Expr.opens_iff hs.1).mp ho)
      rw [if_neg hopens] at ht
      exact hfirst ht (by rw [Stmt.tokensAll, Stmt.tokens, hts]; rfl)

theorem Expr.tokensEach_eq_map (es : List Expr) : Expr.tokensEach es = es.map Expr.tokens := by
  induction es with
  | nil => rfl
  | cons e es ih => rw [tokensEach, ih, List.map_cons]

mutual

/-- The grammar describes an expression that can be read again, without its parentheses. -/
theorem Expr.derives_bare : ∀ {e : Expr}, e.Spelled → e.Rereadable → ∀ rest,
    Derives (.expr e.bareLevel e.unlined) (lexemesOf e.bareTokens ++ rest) rest
  | .identifier _, _, _, _ => .identifier
  | .integer n _, h, _, _ => .integer (Numeral.read_write h)
  | .boolean true _, _, _, _ => .trueWord
  | .boolean false _, _, _, _ => .falseWord
  | .prefixed op operand _, hs, hr, rest => by
    have inner := Derives.parenthesized (Expr.derives_bare (e := operand) hs hr) rest
    exact .prefixed (.of_le (by decide) inner)
  | .infixed left op right line, hs, hr, rest => by
    have htokens : lexemesOf (Expr.infixed left op right line).bareTokens ++ rest =
        lexemesOf left.tokens ++ ⟨op.sign, 0⟩ :: (lexemesOf right.tokens ++ rest) := by
      simp [Expr.bareTokens]
    have hlevel : op.level < .call := Nat.lt_of_le_of_lt op.level_le_product (by decide)
    rw [htokens]
    exact .infixed (.of_le op.level.rank_le_call (.parenthesized (Expr.derives_bare hs.1 hr.1) _))
      hlevel (.parenthesized (Expr.derives_bare hs.2 hr.2) rest)
  | .conditional condition consequence none line, hs, hr, rest => by
    -- the parentheses of the conditional are those that its condition has as an operation
    have htokens : lexemesOf (Expr.conditional condition consequence none line).bareTokens ++ rest =
        ⟨.ifWord, 0⟩ :: ⟨.leftParen, 0⟩ :: (lexemesOf condition.bareTokens ++
          ⟨.rightParen, 0⟩ :: (lexemesOf consequence.tokens ++ rest)) := by
      simp [Expr.bareTokens, Expr.tokens, Expr.tokens_of_isOperation hr.1.1]
    rw [htokens]
    exact .conditional (.of_le condition.equals_le_bareLevel (Expr.derives_bare hs.1 hr.1.2 _))
      (Block.derives hs.2.1 hr.2.1 rest)
  | .conditional condition consequence (some alternative) line, hs, hr, rest => by
    have htokens : lexemesOf (Expr.conditional condition consequence alternative line).bareTokens
        ++ rest = ⟨.ifWord, 0⟩ :: ⟨.leftParen, 0⟩ :: (lexemesOf condition.bareTokens ++
          ⟨.rightParen, 0⟩ :: (lexemesOf consequence.tokens ++
            ⟨.elseWord, 0⟩ :: (lexemesOf alternative.tokens ++ rest))) := by
      simp [Expr.bareTokens, Expr.tokens, Expr.tokens_of_isOperation hr.1.1]
    rw [htokens]
    exact .conditionalElse
      (.of_le condition.equals_le_bareLevel (Expr.derives_bare hs.1 hr.1.2 _))
      (Block.derives hs.2.1 hr.2.1 _) (Block.derives (b := alternative) hs.2.2 hr.2.2 rest)
  | .function parameters body line, hs, hr, rest => by
    have htokens : lexemesOf (Expr.function parameters body line).bareTokens ++ rest =
        ⟨.fnWord, 0⟩ :: ⟨.leftParen, 0⟩ :: (lexemesOf (parameterTokens parameters) ++
          ⟨.rightParen, 0⟩ :: (lexemesOf body.tokens ++ rest)) := by
      simp [Expr.bareTokens, Expr.tokens]
    rw [htokens]
    exact .function (Derives.commaSeparated _ parameters fun _ _ _ => rfl)
      (Block.derives hs.2 hr rest)
  | .call callee args line, hs, hr, rest => by
    have htokens : lexemesOf (Expr.call callee args line).bareTokens ++ rest =
        lexemesOf callee.tokens ++ ⟨.leftParen, 0⟩ ::
          (lexemesOf (commaTokens (args.map Expr.tokens)) ++ ⟨.rightParen, 0⟩ :: rest) := by
      simp [Expr.bareTokens, Expr.tokens, Expr.tokensEach_eq_map]
    have hargs := Expr.derives_each hs.2 hr.2
    rw [htokens, Expr.unlined, Expr.unlinedAll_eq_map]
    exact .call (.parenthesized (Expr.derives_bare hs.1 hr.1) _)
      (Derives.commaSeparated rest args fun e he rest => .of_le (by decide) (hargs e he rest))

theorem Expr.derives_each : ∀ {es : List Expr}, Expr.SpelledAll es → Expr.RereadableAll es →
    ∀ e ∈ es, ∀ rest, Derives (.expr .call e.unlined) (lexemesOf e.tokens ++ rest) rest
  | [], _, _ => by simp
  | e :: es, hs, hr => List.forall_mem_cons.mpr
    ⟨Derives.parenthesized (Expr.derives_bare hs.1 hr.1), Expr.derives_each hs.2 hr.2⟩

theorem Stmt.derives_core : ∀ {s : Stmt}, s.Spelled → s.Rereadable → ∀ rest,
    Derives (.statement s.unlined) (lexemesOf s.core ++ rest) rest
  | .bind target value _, hs, hr, rest =>
    .bind (.of_le (by decide) (.parenthesized (Expr.derives_bare hs.2 hr) rest))
  | .ret value _, hs, hr, rest =>
    .ret (.of_le (by decide) (.parenthesized (Expr.derives_bare (e := value) hs hr) rest))
  | .expr value line, hs, hr, rest => by
    obtain ⟨t, ts, hts, -⟩ := value.tokens_starts
    have hvalue := Derives.parenthesized (Expr.derives_bare (e := value) hs hr) rest
    have htokens : lexemesOf (Stmt.expr value line).core ++ rest =
        ⟨t, 0⟩ :: (lexemesOf ts ++ rest) := by
      rw [Stmt.core, hts]
      rfl
    rw [hts] at hvalue
    rw [htokens]
    exact .expr (.of_le (by decide) hvalue)

theorem Stmt.derives_all : ∀ {ss : List Stmt}, Stmt.SpelledAll ss → Stmt.RereadableAll ss →
    ∀ rest, ¬ Continues rest →
    Derives (.statements (Stmt.unlinedAll ss)) (lexemesOf (Stmt.tokensAll ss) ++ rest) rest
  | [], _, _, _, _ => .noStatement
  | s :: ss, hs, hr, rest, hrest => by
    have first := Stmt.derives_core hs.1 hr.1
    have others := Stmt.derives_all hs.2 hr.2.2 rest hrest
    have htokens : lexemesOf (Stmt.tokensAll (s :: ss)) ++ rest = lexemesOf s.core ++
        (lexemesOf s.terminator ++ (lexemesOf (Stmt.tokensAll ss) ++ rest)) := by
      simp [Stmt.tokensAll, Stmt.tokens_eq]
    rw [htokens]
    cases s with
    | bind target value line => exact .terminated (first _) others
    | ret value line => exact .terminated (first _) others
    | expr value line => exact .unterminated (first _) (Stmt.not_continues hs.2 hr.2.1 hrest) others
    | block body => exact hs.1.elim

theorem Block.derives : ∀ {b : Block}, b.Spelled → b.Rereadable → ∀ rest,
    Derives (.block b.unlined) (lexemesOf b.tokens ++ rest) rest
  | .mk ss line, hs, hr, rest => by
    have htokens : lexemesOf (Block.mk ss line).tokens ++ rest = ⟨.leftBrace, 0⟩ ::
        (lexemesOf (Stmt.tokensAll ss) ++ ⟨.rightBrace, 0⟩ :: rest) := by
      simp [Block.tokens]
    rw [htokens]
    exact .block (Stmt.derives_all hs hr _ (not_continues_cons rfl rest))

end

end ExprScript
