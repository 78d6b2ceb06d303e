import ExprScript.Proofs.Syntax.Rereadable

/-!
# What a written form can be read as

Suppose that the written form of a tree is read as that same tree.  A reader may take
parentheses for those of a group, of a call or of a condition, and may take or leave
terminators, but the other tokens are those of the tree, one after the other.  So it is
enough to look at these, each with the depth at which it stands and the number of
semicolons in front of it (`marks`): where the reader is inside more parentheses than the
written form has for the tree, an operation must be there, and nothing but semicolons tells
an expression from arguments.

* `SameMarks`: lexemes and tokens that look the same in this way.
* `Derives.aligned`: a derivation of a tree from its written form is in step with it, and
  the tree can be read again.
-/

namespace ExprScript

/-! ### Marks -/

/-- A token that is no parenthesis and no semicolon, with the number of parentheses that are
open there and the number of semicolons directly in front of it. -/
structure Mark where
  token : Token
  depth : Int
  semicolons : Nat

/-- The marks of some tokens, from some depth on and after some semicolons. -/
def marks : Int → Nat → List Token → List Mark
  | _, _, [] => []
  | d, n, .leftParen :: ts => marks (d + 1) n ts
  | d, n, .rightParen :: ts => marks (d - 1) n ts
  | d, n, .semicolon :: ts => marks d (n + 1) ts
  | d, n, t :: ts => ⟨t, d, n⟩ :: marks d 0 ts

def Token.isMarked : Token → Bool
  | .leftParen => false
  | .rightParen => false
  | .semicolon => false
  | _ => true

theorem marks_cons {t : Token} (ht : t.isMarked = true) (d : Int) (n : Nat) (ts : List Token) :
    marks d n (t :: ts) = ⟨t, d, n⟩ :: marks d 0 ts := by
  cases t <;> first | rfl | simp [Token.isMarked] at ht

theorem isMarked_infixOp (op : InfixOp) : op.sign.isMarked = true := by
  cases op <;> rfl

theorem isMarked_prefixOp (op : PrefixOp) : op.sign.isMarked = true := by
  cases op <;> rfl

/-- Semicolons stay in front of the next mark. -/
theorem le_semicolons {d : Int} {n : Nat} {ts : List Token} {x : Mark} {xs : List Mark}
    (h : marks d n ts = x :: xs) : n ≤ x.semicolons := by
  induction ts generalizing d n with
  | nil => simp [marks] at h
  | cons t ts ih =>
    cases ht : t.isMarked with
    | true =>
      rw [marks_cons ht] at h
      rw [← (List.cons.inj h).1]
    | false =>
      cases t with
      | leftParen => exact ih h
      | rightParen => exact ih h
      | semicolon => exact Nat.le_of_succ_le (ih h)
      | _ => simp [Token.isMarked] at ht

/-- The first mark of a written form is deeper where that begins with a parenthesis. -/
theorem Expr.marks_starts : ∀ (e : Expr) (d : Int) (n : Nat) (us : List Token),
    ∃ x xs, marks d n (e.tokens ++ us) = x :: xs ∧ x.semicolons = n ∧
      d + (if e.opens then 1 else 0) ≤ x.depth
  | .identifier _, d, n, us => ⟨_, _, rfl, rfl, by simp [opens]⟩
  | .integer _ _, d, n, us => ⟨_, _, rfl, rfl, by simp [opens]⟩
  | .boolean true _, d, n, us => ⟨_, _, rfl, rfl, by simp [opens]⟩
  | .boolean false _, d, n, us => ⟨_, _, rfl, rfl, by simp [opens]⟩
  | .prefixed op operand _, d, n, us =>
    ⟨⟨op.sign, d + 1, n⟩, _, marks_cons (isMarked_prefixOp op) (d + 1) n _, rfl, by simp [opens]⟩
  | .infixed left op right _, d, n, us => by
    obtain ⟨x, xs, hx, hn, hd⟩ := left.marks_starts (d + 1) n
      (op.sign :: (right.tokens ++ .rightParen :: us))
    refine ⟨x, xs, ?_, hn, ?_⟩
    · rw [← hx]
      simp [Expr.tokens, marks]
    · simp only [opens, if_true]
      split at hd <;> omega
  | .conditional _ _ none _, d, n, us => ⟨_, _, rfl, rfl, by simp [opens]⟩
  | .conditional _ _ (some _) _, d, n, us => ⟨_, _, rfl, rfl, by simp [opens]⟩
  | .function _ _ _, d, n, us => ⟨_, _, rfl, rfl, by simp [opens]⟩
  | .call callee args _, d, n, us => by
    obtain ⟨x, xs, hx, hn, hd⟩ := callee.marks_starts d n
      (.leftParen :: (commaTokens (Expr.tokensEach args) ++ .rightParen :: us))
    refine ⟨x, xs, ?_, hn, hd⟩
    rw [← hx]
    simp [Expr.tokens]

/-- The statement that another one runs into begins with a mark that is deeper than the
block. -/
theorem Stmt.RunsInto.marks {s : Stmt} {ss : List Stmt} (hr : s.RunsInto ss)
    (hs : Stmt.SpelledAll ss) (d : Int) (us : List Token) :
    ∃ x xs, ExprScript.marks d 0 (Stmt.tokensAll ss ++ us) = x :: xs ∧ x.semicolons = 0 ∧
      d < x.depth := by
  match s, ss, hr, hs with
  | .expr _ _, .expr next _ :: others, hr, hs =>
    obtain ⟨x, xs, hx, hn, hd⟩ := next.marks_starts d 0 (Stmt.tokensAll others ++ us)
    rw [if_pos ((Expr.opens_iff hs.1).mpr hr)] at hd
    refine ⟨x, xs, ?_, hn, Int.lt_of_add_one_le hd⟩
    rw [Stmt.tokensAll, List.append_assoc]
    exact hx

/-! ### Lexemes that look like tokens -/

/-- The lexemes, from depth `d` on and after `n` semicolons, have the marks that the tokens
have from depth `d'` on and after `n'` semicolons. -/
def SameMarks (d : Int) (n : Nat) (ts : List Lexeme) (d' : Int) (n' : Nat) (us : List Token) :
    Prop :=
  marks d n (ts.map Lexeme.token) = marks d' n' us

namespace SameMarks

variable {d d' : Int} {n n' line : Nat} {ts : List Lexeme} {us : List Token}

theorem cons {t u : Token} (h : SameMarks d n (⟨t, line⟩ :: ts) d' n' (u :: us))
    (ht : t.isMarked = true) (hu : u.isMarked = true) : d = d' ∧ SameMarks d 0 ts d' 0 us := by
  rw [SameMarks, List.map_cons, marks_cons ht, marks_cons hu] at h
  obtain ⟨hmark, h⟩ := List.cons.inj h
  exact ⟨congrArg Mark.depth hmark, h⟩

theorem opened (h : SameMarks d n (⟨.leftParen, line⟩ :: ts) d' n' us) :
    SameMarks (d + 1) n ts d' n' us := h

theorem closed (h : SameMarks (d + 1) n (⟨.rightParen, line⟩ :: ts) d' n' us) :
    SameMarks d n ts d' n' us := by
  rwa [SameMarks, List.map_cons, marks, Int.add_sub_cancel] at h

theorem opened_right (h : SameMarks d n ts d' n' (.leftParen :: us)) :
    SameMarks d n ts (d' + 1) n' us := h

theorem closed_right (h : SameMarks d n ts (d' + 1) n' (.rightParen :: us)) :
    SameMarks d n ts d' n' us := by
  rwa [SameMarks, marks, Int.add_sub_cancel] at h

end SameMarks

/-! ### Derivations -/

namespace Derives

/-- A derivation from lexemes that begin like the written form of the phrase leaves what
follows the written form, and the phrase can be read again.  An expression is not read from
inside more parentheses than its written form has around it; only those of an operation can
have been open before, as long as these are not needed to make it an operand. -/
def Aligned : Phrase → List Lexeme → List Lexeme → Prop
  | .expr p e, ts, rest => e.Spelled → ∀ d n d' n' us, SameMarks d n ts d' n' (e.tokens ++ us) →
    SameMarks d 0 rest d' 0 us ∧ d ≤ d' + (if e.isOperation then 1 else 0) ∧
      (p = .call → d ≤ d') ∧ e.Rereadable
  | .block b, ts, rest => b.Spelled → ∀ d n d' n' us, SameMarks d n ts d' n' (b.tokens ++ us) →
    SameMarks d 0 rest d' 0 us ∧ b.Rereadable
  | .statement s, ts, rest => s.Spelled → ∀ d n n' us, SameMarks d n ts d n' (s.core ++ us) →
    SameMarks d 0 rest d 0 us ∧ s.Rereadable
  | .statements ss, ts, rest => Stmt.SpelledAll ss → ∀ d n n' us,
    SameMarks d n ts d n' (Stmt.tokensAll ss ++ us) →
      (∃ m m', SameMarks d m rest d m' us) ∧ Stmt.RereadableAll ss

theorem aligned_parameters {parameters : List Identifier} {ts rest : List Lexeme}
    (h : CommaSeparated IsParameter .rightParen parameters ts rest) {d d' : Int}
    {us : List Token} (hm : SameMarks (d + 1) 0 ts (d' + 1) 0
      (parameterTokens parameters ++ .rightParen :: us)) : SameMarks d 0 rest d' 0 us := by
  induction h with
  | none => exact hm.closed.closed_right
  | last hp =>
    rw [hp] at hm
    exact (hm.cons rfl rfl).2.closed.closed_right
  | more hp _ ih =>
    rw [hp] at hm
    exact ih ((hm.cons rfl rfl).2.cons rfl rfl).2

section
variable {p q : Precedence} {e : Expr} {line l₁ l₂ l₃ : Nat} {ts mid other rest : List Lexeme}

theorem aligned_atom {t u : Token} (ht : t.isMarked = true) (hu : u.isMarked = true)
    (he : e.tokens = [u]) (hr : e.Rereadable) : Aligned (.expr p e) (⟨t, line⟩ :: rest) rest := by
  intro _ d n d' n' us hm
  rw [he] at hm
  obtain ⟨rfl, hrest⟩ := hm.cons ht hu
  refine ⟨hrest, ?_, fun _ => Int.le_refl d, hr⟩
  split <;> omega

theorem aligned_tighter (hlt : p < q) (h : Aligned (.expr q e) ts rest) :
    Aligned (.expr p e) ts rest := by
  intro hs d n d' n' us hm
  obtain ⟨hrest, hle, -, hr⟩ := h hs d n d' n' us hm
  refine ⟨hrest, hle, ?_, hr⟩
  rintro rfl
  exact absurd hlt (Nat.not_lt.mpr q.rank_le_call)

/-- The operator stands one parenthesis deeper than the written form. -/
theorem aligned_infixed {op : InfixOp} {left right : Expr}
    (hl : Aligned (.expr op.level left) ts (⟨op.sign, line⟩ :: mid))
    (hr : Aligned (.expr q right) mid rest) :
    Aligned (.expr op.level (.infixed left op right line)) ts rest := by
  intro hs d n d' n' us hm
  have htokens : (Expr.infixed left op right line).tokens ++ us =
      .leftParen :: (left.tokens ++ op.sign :: (right.tokens ++ .rightParen :: us)) := by
    simp [Expr.tokens]
  rw [htokens] at hm
  obtain ⟨hop, -, -, hleft⟩ := hl hs.1 d n (d' + 1) n' _ hm.opened_right
  obtain ⟨hd, hm⟩ := hop.cons (isMarked_infixOp op) (isMarked_infixOp op)
  obtain ⟨hrest, -, -, hright⟩ := hr hs.2 d 0 (d' + 1) 0 _ hm
  refine ⟨hrest.closed_right, Int.le_of_eq hd, fun hcall => ?_, hleft, hright⟩
  have hlevel := op.level_le_product
  rw [hcall] at hlevel
  exact absurd hlevel (by decide)

theorem aligned_prefixed {op : PrefixOp} {operand : Expr}
    (h : Aligned (.expr .operand operand) ts rest) :
    Aligned (.expr .operand (.prefixed op operand line)) (⟨op.sign, line⟩ :: ts) rest := by
  intro hs d n d' n' us hm
  have htokens : (Expr.prefixed op operand line).tokens ++ us =
      .leftParen :: op.sign :: (operand.tokens ++ .rightParen :: us) := by
    simp [Expr.tokens]
  rw [htokens] at hm
  obtain ⟨hd, hm⟩ := hm.opened_right.cons (isMarked_prefixOp op) (isMarked_prefixOp op)
  obtain ⟨hrest, -, -, hr⟩ := h hs d 0 (d' + 1) 0 _ hm
  exact ⟨hrest.closed_right, Int.le_of_eq hd, nofun, hr⟩

theorem aligned_call {callee : Expr} {args : List Expr}
    (hc : Aligned (.expr .call callee) ts (⟨.leftParen, l₁⟩ :: mid))
    (ha : Expr.SpelledAll args → ∀ d d' us,
      SameMarks (d + 1) 0 mid (d' + 1) 0 (commaTokens (Expr.tokensEach args) ++ .rightParen :: us) →
      SameMarks d 0 rest d' 0 us ∧ Expr.RereadableAll args) :
    Aligned (.expr .call (.call callee args line)) ts rest := by
  intro hs d n d' n' us hm
  have htokens : (Expr.call callee args line).tokens ++ us = callee.tokens ++
      .leftParen :: (commaTokens (Expr.tokensEach args) ++ .rightParen :: us) := by
    simp [Expr.tokens]
  rw [htokens] at hm
  obtain ⟨hm, -, hd, hcallee⟩ := hc hs.1 d n d' n' _ hm
  obtain ⟨hrest, hargs⟩ := ha hs.2 d d' us hm.opened.opened_right
  refine ⟨hrest, ?_, fun _ => hd rfl, hcallee, hargs⟩
  simpa [Expr.isOperation] using hd rfl

theorem aligned_group (h : Aligned (.expr .equals e) ts (⟨.rightParen, l₂⟩ :: rest)) :
    Aligned (.expr .call e) (⟨.leftParen, l₁⟩ :: ts) rest := by
  intro hs d n d' n' us hm
  obtain ⟨hrest, hle, -, hr⟩ := h hs (d + 1) n d' n' us hm.opened
  refine ⟨hrest.closed, ?_, fun _ => ?_, hr⟩
  · omega
  · split at hle <;> omega

/-- The condition is read from inside the parentheses of the conditional, so it must be an
operation. -/
theorem aligned_condition {condition : Expr}
    (h : Aligned (.expr .equals condition) ts (⟨.rightParen, l₂⟩ :: mid))
    (hs : condition.Spelled) {d d' : Int} {n n' : Nat} {us : List Token}
    (hm : SameMarks d n (⟨.ifWord, line⟩ :: ⟨.leftParen, l₁⟩ :: ts) d' n'
      (.ifWord :: (condition.tokens ++ us))) :
    d = d' ∧ SameMarks d 0 mid d 0 us ∧ condition.isOperation = true ∧ condition.Rereadable := by
  obtain ⟨rfl, hm⟩ := hm.cons rfl rfl
  obtain ⟨hmid, hle, -, hr⟩ := h hs (d + 1) 0 d 0 us hm.opened
  refine ⟨rfl, hmid.closed, ?_, hr⟩
  split at hle
  · assumption
  · omega

theorem aligned_conditional {condition : Expr} {consequence : Block}
    (hc : Aligned (.expr .equals condition) ts (⟨.rightParen, l₂⟩ :: mid))
    (hb : Aligned (.block consequence) mid rest) :
    Aligned (.expr .call (.conditional condition consequence none line))
      (⟨.ifWord, line⟩ :: ⟨.leftParen, l₁⟩ :: ts) rest := by
  intro hs d n d' n' us hm
  have htokens : (Expr.conditional condition consequence none line).tokens ++ us =
      .ifWord :: (condition.tokens ++ (consequence.tokens ++ us)) := by
    simp [Expr.tokens]
  rw [htokens] at hm
  obtain ⟨rfl, hm, hcondition⟩ := aligned_condition hc hs.1 hm
  obtain ⟨hrest, hconsequence⟩ := hb hs.2.1 d 0 d 0 us hm
  exact ⟨hrest, by simp [Expr.isOperation], fun _ => Int.le_refl d, hcondition, hconsequence,
    trivial⟩

theorem aligned_conditionalElse {condition : Expr} {consequence alternative : Block}
    (hc : Aligned (.expr .equals condition) ts (⟨.rightParen, l₂⟩ :: mid))
    (hb : Aligned (.block consequence) mid (⟨.elseWord, l₃⟩ :: other))
    (ha : Aligned (.block alternative) other rest) :
    Aligned (.expr .call (.conditional condition consequence (some alternative) line))
      (⟨.ifWord, line⟩ :: ⟨.leftParen, l₁⟩ :: ts) rest := by
  intro hs d n d' n' us hm
  have htokens : (Expr.conditional condition consequence (some alternative) line).tokens ++ us =
      .ifWord :: (condition.tokens ++ (consequence.tokens ++
        .elseWord :: (alternative.tokens ++ us))) := by
    simp [Expr.tokens]
  rw [htokens] at hm
  obtain ⟨rfl, hm, hcondition⟩ := aligned_condition hc hs.1 hm
  obtain ⟨hm, hconsequence⟩ := hb hs.2.1 d 0 d 0 _ hm
  obtain ⟨hrest, halternative⟩ := ha hs.2.2 d 0 d 0 us (hm.cons rfl rfl).2
  exact ⟨hrest, by simp [Expr.isOperation], fun _ => Int.le_refl d, hcondition, hconsequence,
    halternative⟩

theorem aligned_function {parameters : List Identifier} {body : Block}
    (hp : CommaSeparated IsParameter .rightParen parameters ts mid)
    (hb : Aligned (.block body) mid rest) :
    Aligned (.expr .call (.function parameters body line))
      (⟨.fnWord, line⟩ :: ⟨.leftParen, l₁⟩ :: ts) rest := by
  intro hs d n d' n' us hm
  have htokens : (Expr.function parameters body line).tokens ++ us = .fnWord :: .leftParen ::
      (parameterTokens parameters ++ .rightParen :: (body.tokens ++ us)) := by
    simp [Expr.tokens]
  rw [htokens] at hm
  obtain ⟨rfl, hm⟩ := hm.cons rfl rfl
  have hbody := aligned_parameters hp hm.opened.opened_right
  obtain ⟨hrest, hr⟩ := hb hs.2 d 0 d 0 us hbody
  exact ⟨hrest, by simp [Expr.isOperation], fun _ => Int.le_refl d, hr⟩

theorem aligned_block {ss : List Stmt}
    (h : Aligned (.statements ss) ts (⟨.rightBrace, l₁⟩ :: rest)) :
    Aligned (.block (.mk ss line)) (⟨.leftBrace, line⟩ :: ts) rest := by
  intro hs d n d' n' us hm
  have htokens : (Block.mk ss line).tokens ++ us =
      .leftBrace :: (Stmt.tokensAll ss ++ .rightBrace :: us) := by
    simp [Block.tokens]
  rw [htokens] at hm
  obtain ⟨rfl, hm⟩ := hm.cons rfl rfl
  obtain ⟨⟨m, m', hend⟩, hr⟩ := h hs d 0 0 _ hm
  exact ⟨(hend.cons rfl rfl).2, hr⟩

theorem aligned_bind {name : String} {value : Expr} (h : Aligned (.expr .equals value) ts rest) :
    Aligned (.statement (.bind ⟨name, l₁⟩ value line))
      (⟨.letWord, line⟩ :: ⟨.identifier name, l₁⟩ :: ⟨.assign, l₂⟩ :: ts) rest := by
  intro hs d n n' us hm
  obtain ⟨-, hm⟩ := hm.cons rfl rfl
  obtain ⟨-, hm⟩ := hm.cons rfl rfl
  obtain ⟨-, hm⟩ := hm.cons rfl rfl
  obtain ⟨hrest, -, -, hr⟩ := h hs.2 d 0 d 0 us hm
  exact ⟨hrest, hr⟩

theorem aligned_ret {value : Expr} (h : Aligned (.expr .equals value) ts rest) :
    Aligned (.statement (.ret value line)) (⟨.returnWord, line⟩ :: ts) rest := by
  intro hs d n n' us hm
  obtain ⟨-, hm⟩ := hm.cons rfl rfl
  obtain ⟨hrest, -, -, hr⟩ := h hs d 0 d 0 us hm
  exact ⟨hrest, hr⟩

theorem aligned_exprStmt {value : Expr} (h : Aligned (.expr .equals value) ts rest) :
    Aligned (.statement (.expr value line)) ts rest := by
  intro hs d n n' us hm
  obtain ⟨hrest, -, -, hr⟩ := h hs d n d n' us hm
  exact ⟨hrest, hr⟩

theorem aligned_noStatement : Aligned (.statements []) rest rest :=
  fun _ _ n n' _ hm => ⟨⟨n, n', hm⟩, trivial⟩

theorem aligned_emptyStatement {ss : List Stmt} (h : Aligned (.statements ss) ts rest) :
    Aligned (.statements ss) (⟨.semicolon, line⟩ :: ts) rest :=
  fun hs d n n' us hm => h hs d (n + 1) n' us hm

/-- A semicolon in front of the next statement is not in the written form. -/
theorem not_runsInto_of_semicolon {s : Stmt} {ss : List Stmt} (hs : Stmt.SpelledAll ss) {d : Int}
    {us : List Token} (hm : SameMarks d 1 mid d 0 (Stmt.tokensAll ss ++ us)) : ¬ s.RunsInto ss := by
  intro hr
  obtain ⟨x, xs, hx, hn, -⟩ := hr.marks hs d us
  have hle := le_semicolons (hm.trans hx)
  omega

/-- Without a semicolon the next statement begins where this one ends, so it does not begin
with a parenthesis. -/
theorem not_runsInto_of_not_continues {s : Stmt} {ss : List Stmt} (hs : Stmt.SpelledAll ss)
    (hmid : ¬ Continues mid) (hd : Derives (.statements ss) mid rest) {d : Int} {us : List Token}
    (hm : SameMarks d 0 mid d 0 (Stmt.tokensAll ss ++ us)) : ¬ s.RunsInto ss := by
  intro hr
  obtain ⟨x, xs, hx, hn, hdepth⟩ := hr.marks hs d us
  have hmarks : marks d 0 (mid.map Lexeme.token) = x :: xs := hm.trans hx
  have hstatement {s' : Stmt} {end' : List Lexeme} (h : Derives (.statement s') mid end') :
      False := by
    obtain ⟨l, tl, rfl, hl⟩ := h.starts
    have hparen : l.token ≠ .leftParen := fun ht => hmid ⟨l, tl, rfl, Or.inl ht⟩
    have hmarked : l.token.isMarked = true := by
      cases ht : l.token <;> simp_all [Token.startForm?, Token.isMarked]
    rw [List.map_cons, marks_cons hmarked] at hmarks
    rw [← (List.cons.inj hmarks).1] at hdepth
    exact absurd hdepth (Int.lt_irrefl d)
  cases hd with
  | noStatement => cases s <;> exact hr
  | emptyStatement _ =>
    have hle := le_semicolons (n := 1) hmarks
    omega
  | terminated h _ => exact hstatement h
  | unterminated h _ _ => exact hstatement h

theorem aligned_others {s : Stmt} {ss : List Stmt} (h : Aligned (.statements ss) mid rest)
    (hs : Stmt.SpelledAll (s :: ss)) (hr : s.Rereadable) {d : Int} {n : Nat} {us : List Token}
    (hm : SameMarks d n mid d 0 (s.terminator ++ (Stmt.tokensAll ss ++ us)))
    (hruns : SameMarks d n mid d 0 (Stmt.tokensAll ss ++ us) → ¬ s.RunsInto ss) :
    (∃ m m', SameMarks d m rest d m' us) ∧ Stmt.RereadableAll (s :: ss) := by
  cases s with
  | bind target value line =>
    obtain ⟨hrest, hothers⟩ := h hs.2 d n 1 us hm
    exact ⟨hrest, hr, id, hothers⟩
  | ret value line =>
    obtain ⟨hrest, hothers⟩ := h hs.2 d n 1 us hm
    exact ⟨hrest, hr, id, hothers⟩
  | expr value line =>
    obtain ⟨hrest, hothers⟩ := h hs.2 d n 0 us hm
    exact ⟨hrest, hr, hruns hm, hothers⟩
  | block body => exact hs.1.elim

theorem aligned_terminated {s : Stmt} {ss : List Stmt}
    (hs : Aligned (.statement s) ts (⟨.semicolon, line⟩ :: mid))
    (h : Aligned (.statements ss) mid rest) : Aligned (.statements (s :: ss)) ts rest := by
  intro hspelled d n n' us hm
  rw [Stmt.tokensAll_cons] at hm
  obtain ⟨hm, hr⟩ := hs hspelled.1 d n n' _ hm
  exact aligned_others (n := 1) h hspelled hr hm (not_runsInto_of_semicolon hspelled.2)

theorem aligned_unterminated {s : Stmt} {ss : List Stmt} (hs : Aligned (.statement s) ts mid)
    (hmid : ¬ Continues mid) (hd : Derives (.statements ss) mid rest)
    (h : Aligned (.statements ss) mid rest) : Aligned (.statements (s :: ss)) ts rest := by
  intro hspelled d n n' us hm
  rw [Stmt.tokensAll_cons] at hm
  obtain ⟨hm, hr⟩ := hs hspelled.1 d n n' _ hm
  exact aligned_others h hspelled hr hm (not_runsInto_of_not_continues hspelled.2 hmid hd)

end

mutual

/-- **A derivation of a tree from its written form is in step with it.** -/
theorem aligned : ∀ {x : Phrase} {ts rest : List Lexeme}, Derives x ts rest → Aligned x ts rest
  | _, _, _, .tighter hlt h => aligned_tighter hlt h.aligned
  | _, _, _, .infixed hl _ hr => aligned_infixed hl.aligned hr.aligned
  | _, _, _, .prefixed h => aligned_prefixed h.aligned
  | _, _, _, .call hc ha => aligned_call hc.aligned (aligned_arguments ha)
  | _, _, _, .identifier => aligned_atom rfl rfl rfl trivial
  | _, _, _, .integer _ => aligned_atom rfl rfl rfl trivial
  | _, _, _, .trueWord => aligned_atom (u := .trueWord) rfl rfl rfl trivial
  | _, _, _, .falseWord => aligned_atom (u := .falseWord) rfl rfl rfl trivial
  | _, _, _, .group h => aligned_group h.aligned
  | _, _, _, .conditional hc hb => aligned_conditional hc.aligned hb.aligned
  | _, _, _, .conditionalElse hc hb ha =>
    aligned_conditionalElse hc.aligned hb.aligned ha.aligned
  | _, _, _, .function hp hb => aligned_function hp hb.aligned
  | _, _, _, .block h => aligned_block h.aligned
  | _, _, _, .bind h => aligned_bind h.aligned
  | _, _, _, .ret h => aligned_ret h.aligned
  | _, _, _, .expr h => aligned_exprStmt h.aligned
  | _, _, _, .noStatement => aligned_noStatement
  | _, _, _, .emptyStatement h => aligned_emptyStatement h.aligned
  | _, _, _, .terminated hs h => aligned_terminated hs.aligned h.aligned
  | _, _, _, .unterminated hs hmid h => aligned_unterminated hs.aligned hmid h h.aligned
termination_by structural _ _ _ h => h

theorem aligned_arguments : ∀ {es : List Expr} {ts rest : List Lexeme},
    CommaSeparated (fun e => Derives (.expr .equals e)) .rightParen es ts rest →
      Expr.SpelledAll es → ∀ d d' us,
      SameMarks (d + 1) 0 ts (d' + 1) 0 (commaTokens (Expr.tokensEach es) ++ .rightParen :: us) →
      SameMarks d 0 rest d' 0 us ∧ Expr.RereadableAll es
  | _, _, _, .none, _, _, _, _, hm => ⟨hm.closed.closed_right, trivial⟩
  | _, _, _, .last h, hs, d, d', us, hm => by
    obtain ⟨hrest, -, -, hr⟩ := h.aligned hs.1 (d + 1) 0 (d' + 1) 0 _ hm
    exact ⟨hrest.closed.closed_right, hr, trivial⟩
  | e :: e' :: es, _, _, .more h hargs, hs, d, d', us, hm => by
    have htokens : commaTokens (Expr.tokensEach (e :: e' :: es)) ++ .rightParen :: us = e.tokens ++
        .comma :: (commaTokens (Expr.tokensEach (e' :: es)) ++ .rightParen :: us) := by
      simp [Expr.tokensEach, commaTokens]
    rw [htokens] at hm
    obtain ⟨hm, -, -, hr⟩ := h.aligned hs.1 (d + 1) 0 (d' + 1) 0 _ hm
    obtain ⟨hrest, hrs⟩ := aligned_arguments hargs hs.2 d d' us (hm.cons rfl rfl).2
    exact ⟨hrest, hr, hrs⟩
termination_by structural _ _ _ h => h

end

end Derives

end ExprScript
