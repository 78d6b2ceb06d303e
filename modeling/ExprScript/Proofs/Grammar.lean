import ExprScript.Numeral
import ExprScript.Precedence

/-!
# The grammar of programs

The phrases of the language and what they are made of, without reference to how
they are parsed.  `Derives x ts rest` says that the lexemes `ts` are the phrase
`x`, followed by the lexemes `rest`; a whole input is the program `p` when
`Derives (.statements p) ts []`.

Expressions stand on levels, of which that of `==` is the loosest.  An infix
operator of a level has an expression of the same level on its left and one of a
tighter level on its right, so operators of one level group to the left.  Every
node of the tree carries the line of its own token.

* `Derives.of_le`: an expression of some level is one of every looser level.
* `Derives.starts`: the token that an expression or a statement starts with.
* `Derives.takes`: every phrase but a sequence of statements takes a lexeme.
-/

namespace ExprScript

namespace Precedence

theorem rank_injective {p q : Precedence} (h : p.rank = q.rank) : p = q := by
  cases p <;> cases q <;> first | rfl | simp [rank] at h

theorem rank_le_call (p : Precedence) : p.rank ≤ Precedence.call.rank := by
  cases p <;> decide

end Precedence

/-! ### Tokens of operators -/

def PrefixOp.sign : PrefixOp → Token
  | .not => .bang
  | .negate => .minus

def InfixOp.sign : InfixOp → Token
  | .add => .plus
  | .sub => .minus
  | .mul => .star
  | .div => .slash
  | .less => .less
  | .greater => .greater
  | .equal => .equal
  | .notEqual => .notEqual

/-- The level that an infix operator makes expressions of. -/
def InfixOp.level : InfixOp → Precedence
  | .equal | .notEqual => .equals
  | .less | .greater => .lessGreater
  | .add | .sub => .sum
  | .mul | .div => .product

namespace Token

theorem prefixOp?_eq_some_iff {t : Token} {op : PrefixOp} : t.prefixOp? = some op ↔ t = op.sign := by
  cases op <;> cases t <;> simp [prefixOp?, PrefixOp.sign]

theorem infixOp?_eq_some_iff {t : Token} {op : InfixOp} : t.infixOp? = some op ↔ t = op.sign := by
  cases op <;> cases t <;> simp [infixOp?, InfixOp.sign]

theorem infixOp?_isSome {t : Token} : t.infixOp?.isSome ↔ ∃ op : InfixOp, t = op.sign := by
  simp only [Option.isSome_iff_exists, infixOp?_eq_some_iff]

/-- Only infix operators and `(` bind. -/
theorem precedence_le_lowest {t : Token} (hp : t ≠ .leftParen) (hop : ¬ t.infixOp?.isSome) :
    t.precedence ≤ .lowest := by
  cases t <;> first | exact Nat.le_refl _ | exact absurd rfl hp | exact absurd rfl hop

theorem precedence_sign (op : InfixOp) : op.sign.precedence = op.level := by
  cases op <;> rfl

theorem continueForm?_sign (op : InfixOp) : op.sign.continueForm? = some .infixed := by
  cases op <;> rfl

end Token

theorem InfixOp.level_le_product (op : InfixOp) : op.level ≤ .product := by
  cases op <;> decide

/-! ### Phrases -/

/-- Items with commas between them, up to and including the closing token: there
may be none, and no comma stands before the closing token. -/
inductive CommaSeparated {α : Type} (item : α → List Lexeme → List Lexeme → Prop)
    (closing : Token) : List α → List Lexeme → List Lexeme → Prop where
  | none {line : Nat} {rest : List Lexeme} :
      CommaSeparated item closing [] (⟨closing, line⟩ :: rest) rest
  | last {a : α} {line : Nat} {ts rest : List Lexeme} :
      item a ts (⟨closing, line⟩ :: rest) → CommaSeparated item closing [a] ts rest
  | more {a b : α} {as : List α} {line : Nat} {ts mid rest : List Lexeme} :
      item a ts (⟨.comma, line⟩ :: mid) → CommaSeparated item closing (b :: as) mid rest →
      CommaSeparated item closing (a :: b :: as) ts rest

def IsParameter (id : Identifier) (ts rest : List Lexeme) : Prop :=
  ts = ⟨.identifier id.name, id.line⟩ :: rest

def Continues (ts : List Lexeme) : Prop :=
  ∃ l rest, ts = l :: rest ∧ (l.token = .leftParen ∨ ∃ op : InfixOp, l.token = op.sign)

/-- What the grammar describes: an expression on a level, a block, a statement
without its terminator, and a sequence of statements. -/
inductive Phrase where
  | expr (level : Precedence) (e : Expr)
  | block (b : Block)
  | statement (s : Stmt)
  | statements (ss : List Stmt)

/-- The lexemes are the phrase, followed by the rest. -/
inductive Derives : Phrase → List Lexeme → List Lexeme → Prop where
  | tighter {p q : Precedence} {e : Expr} {ts rest : List Lexeme} :
      p < q → Derives (.expr q e) ts rest → Derives (.expr p e) ts rest
  | infixed {op : InfixOp} {q : Precedence} {left right : Expr} {line : Nat}
      {ts mid rest : List Lexeme} :
      Derives (.expr op.level left) ts (⟨op.sign, line⟩ :: mid) →
      op.level < q → Derives (.expr q right) mid rest →
      Derives (.expr op.level (.infixed left op right line)) ts rest
  | prefixed {op : PrefixOp} {operand : Expr} {line : Nat} {ts rest : List Lexeme} :
      Derives (.expr .operand operand) ts rest →
      Derives (.expr .operand (.prefixed op operand line)) (⟨op.sign, line⟩ :: ts) rest
  | call {callee : Expr} {arguments : List Expr} {line : Nat} {ts mid rest : List Lexeme} :
      Derives (.expr .call callee) ts (⟨.leftParen, line⟩ :: mid) →
      CommaSeparated (fun e => Derives (.expr .equals e)) .rightParen arguments mid rest →
      Derives (.expr .call (.call callee arguments line)) ts rest
  | identifier {name : String} {line : Nat} {rest : List Lexeme} :
      Derives (.expr .call (.identifier ⟨name, line⟩)) (⟨.identifier name, line⟩ :: rest) rest
  | integer {text : String} {n : Int64} {line : Nat} {rest : List Lexeme} :
      Numeral.read text = some n →
      Derives (.expr .call (.integer n line)) (⟨.integer text, line⟩ :: rest) rest
  | trueWord {line : Nat} {rest : List Lexeme} :
      Derives (.expr .call (.boolean true line)) (⟨.trueWord, line⟩ :: rest) rest
  | falseWord {line : Nat} {rest : List Lexeme} :
      Derives (.expr .call (.boolean false line)) (⟨.falseWord, line⟩ :: rest) rest
  | group {e : Expr} {l₁ l₂ : Nat} {ts rest : List Lexeme} :
      Derives (.expr .equals e) ts (⟨.rightParen, l₂⟩ :: rest) →
      Derives (.expr .call e) (⟨.leftParen, l₁⟩ :: ts) rest
  | conditional {condition : Expr} {consequence : Block} {line l₁ l₂ : Nat}
      {ts mid rest : List Lexeme} :
      Derives (.expr .equals condition) ts (⟨.rightParen, l₂⟩ :: mid) →
      Derives (.block consequence) mid rest →
      Derives (.expr .call (.conditional condition consequence none line))
        (⟨.ifWord, line⟩ :: ⟨.leftParen, l₁⟩ :: ts) rest
  | conditionalElse {condition : Expr} {consequence alternative : Block} {line l₁ l₂ l₃ : Nat}
      {ts mid other rest : List Lexeme} :
      Derives (.expr .equals condition) ts (⟨.rightParen, l₂⟩ :: mid) →
      Derives (.block consequence) mid (⟨.elseWord, l₃⟩ :: other) →
      Derives (.block alternative) other rest →
      Derives (.expr .call (.conditional condition consequence (some alternative) line))
        (⟨.ifWord, line⟩ :: ⟨.leftParen, l₁⟩ :: ts) rest
  | function {parameters : List Identifier} {body : Block} {line l₁ : Nat}
      {ts mid rest : List Lexeme} :
      CommaSeparated IsParameter .rightParen parameters ts mid →
      Derives (.block body) mid rest →
      Derives (.expr .call (.function parameters body line))
        (⟨.fnWord, line⟩ :: ⟨.leftParen, l₁⟩ :: ts) rest
  | block {ss : List Stmt} {line l₁ : Nat} {ts rest : List Lexeme} :
      Derives (.statements ss) ts (⟨.rightBrace, l₁⟩ :: rest) →
      Derives (.block (.mk ss line)) (⟨.leftBrace, line⟩ :: ts) rest
  | bind {name : String} {value : Expr} {line l₁ l₂ : Nat} {ts rest : List Lexeme} :
      Derives (.expr .equals value) ts rest →
      Derives (.statement (.bind ⟨name, l₁⟩ value line))
        (⟨.letWord, line⟩ :: ⟨.identifier name, l₁⟩ :: ⟨.assign, l₂⟩ :: ts) rest
  | ret {value : Expr} {line : Nat} {ts rest : List Lexeme} :
      Derives (.expr .equals value) ts rest →
      Derives (.statement (.ret value line)) (⟨.returnWord, line⟩ :: ts) rest
  | expr {value : Expr} {l : Lexeme} {ts rest : List Lexeme} :
      Derives (.expr .equals value) (l :: ts) rest →
      Derives (.statement (.expr value l.line)) (l :: ts) rest
  | noStatement {rest : List Lexeme} : Derives (.statements []) rest rest
  | emptyStatement {ss : List Stmt} {line : Nat} {ts rest : List Lexeme} :
      Derives (.statements ss) ts rest →
      Derives (.statements ss) (⟨.semicolon, line⟩ :: ts) rest
  | terminated {s : Stmt} {ss : List Stmt} {line : Nat} {ts mid rest : List Lexeme} :
      Derives (.statement s) ts (⟨.semicolon, line⟩ :: mid) →
      Derives (.statements ss) mid rest → Derives (.statements (s :: ss)) ts rest
  | unterminated {s : Stmt} {ss : List Stmt} {ts mid rest : List Lexeme} :
      Derives (.statement s) ts mid → ¬ Continues mid →
      Derives (.statements ss) mid rest → Derives (.statements (s :: ss)) ts rest

namespace Derives

theorem of_le {p q : Precedence} {e : Expr} {ts rest : List Lexeme} (h : p ≤ q)
    (hd : Derives (.expr q e) ts rest) : Derives (.expr p e) ts rest := by
  rcases Nat.lt_or_eq_of_le h with hlt | heq
  · exact .tighter hlt hd
  · rw [Precedence.rank_injective heq]
    exact hd

/-! ### First tokens -/

/-- How expressions and statements start: with a token that expressions start with,
or with the keyword of a statement. -/
def Starts : Phrase → List Lexeme → Prop
  | .expr _ _, ts => ∃ l tl, ts = l :: tl ∧ l.token.startForm?.isSome
  | .statement _, ts => ∃ l tl, ts = l :: tl ∧
      (l.token.startForm?.isSome ∨ l.token = .letWord ∨ l.token = .returnWord)
  | _, _ => True

/-- The first token of a left-recursive phrase is that of its left part. -/
theorem starts : ∀ {x : Phrase} {ts rest : List Lexeme}, Derives x ts rest → Starts x ts
  | _, _, _, .tighter _ h => h.starts
  | _, _, _, .infixed h _ _ => h.starts
  | _, _, _, .call h _ => h.starts
  | .expr _ (.prefixed op _ _), _, _, .prefixed _ => ⟨_, _, rfl, by cases op <;> rfl⟩
  | _, _, _, .identifier => ⟨_, _, rfl, rfl⟩
  | _, _, _, .integer _ => ⟨_, _, rfl, rfl⟩
  | _, _, _, .trueWord => ⟨_, _, rfl, rfl⟩
  | _, _, _, .falseWord => ⟨_, _, rfl, rfl⟩
  | _, _, _, .group _ => ⟨_, _, rfl, rfl⟩
  | _, _, _, .conditional _ _ => ⟨_, _, rfl, rfl⟩
  | _, _, _, .conditionalElse _ _ _ => ⟨_, _, rfl, rfl⟩
  | _, _, _, .function _ _ => ⟨_, _, rfl, rfl⟩
  | _, _, _, .bind _ => ⟨_, _, rfl, Or.inr (Or.inl rfl)⟩
  | _, _, _, .ret _ => ⟨_, _, rfl, Or.inr (Or.inr rfl)⟩
  | _, _, _, .expr h =>
    let ⟨l, tl, hl, hs⟩ := h.starts
    ⟨l, tl, hl, Or.inl hs⟩
  | .block _, _, _, _ => trivial
  | .statements _, _, _, _ => trivial
termination_by structural _ _ _ h => h

/-- A sequence of statements starts as a statement does, with a semicolon, or with
what follows it; so an `else` in front of it follows it. -/
theorem statements_starts {ss : List Stmt} {ts rest : List Lexeme}
    (hd : Derives (.statements ss) ts rest) (hr : ∀ l ∈ rest.head?, l.token ≠ .elseWord) :
    ∀ l ∈ ts.head?, l.token ≠ .elseWord := by
  have statement {s : Stmt} {ts mid : List Lexeme} (h : Derives (.statement s) ts mid) :
      ∀ l ∈ ts.head?, l.token ≠ .elseWord := by
    intro l hl ht
    obtain ⟨l', tl, rfl, hs⟩ := h.starts
    obtain rfl := Option.some.inj hl
    rw [ht] at hs
    exact absurd hs (by decide)
  cases hd with
  | noStatement => exact hr
  | emptyStatement h =>
    intro l hl
    obtain rfl := Option.some.inj hl
    simp
  | terminated h _ => exact statement h
  | unterminated h _ _ => exact statement h

/-! ### Phrases are not empty -/

/-- How much of the lexemes a phrase takes: all but a sequence of statements take
at least one. -/
def Takes : Phrase → List Lexeme → List Lexeme → Prop
  | .statements _, ts, rest => rest.length ≤ ts.length
  | _, ts, rest => rest.length < ts.length

theorem takes_trans {l : Lexeme} {ts mid rest : List Lexeme}
    (h : (l :: mid).length < ts.length) (h' : rest.length < mid.length) :
    rest.length < ts.length :=
  Nat.lt_trans h' (Nat.lt_of_succ_lt h)

theorem parameters_length_lt {ps : List Identifier} {closing : Token} {ts rest : List Lexeme}
    (h : CommaSeparated IsParameter closing ps ts rest) : rest.length < ts.length := by
  induction h with
  | none => simp
  | last h =>
    rw [h]
    simp only [List.length_cons]
    omega
  | more h _ ih =>
    rw [h]
    simp only [List.length_cons]
    omega

mutual

theorem takes : ∀ {x : Phrase} {ts rest : List Lexeme}, Derives x ts rest → Takes x ts rest
  | _, _, _, .tighter _ h => h.takes
  | _, _, _, .infixed hl _ hr => takes_trans hl.takes hr.takes
  | _, _, _, .prefixed h => by
    have := h.takes
    simp only [Takes, List.length_cons] at this ⊢
    omega
  | _, _, _, .call hc ha => takes_trans hc.takes (arguments_length_lt ha)
  | _, _, _, .identifier => by simp [Takes]
  | _, _, _, .integer _ => by simp [Takes]
  | _, _, _, .trueWord => by simp [Takes]
  | _, _, _, .falseWord => by simp [Takes]
  | _, _, _, .group h => by
    have := h.takes
    simp only [Takes, List.length_cons] at this ⊢
    omega
  | _, _, _, .conditional hc hb => by
    have := takes_trans hc.takes hb.takes
    simp only [Takes, List.length_cons] at this ⊢
    omega
  | _, _, _, .conditionalElse hc hb ha => by
    have := takes_trans hc.takes (takes_trans hb.takes ha.takes)
    simp only [Takes, List.length_cons] at this ⊢
    omega
  | _, _, _, .function hp hb => by
    have := Nat.lt_trans hb.takes (parameters_length_lt hp)
    simp only [Takes, List.length_cons] at this ⊢
    omega
  | _, _, _, .block h => by
    have := h.takes
    simp only [Takes, List.length_cons] at this ⊢
    omega
  | _, _, _, .bind h => by
    have := h.takes
    simp only [Takes, List.length_cons] at this ⊢
    omega
  | _, _, _, .ret h => by
    have := h.takes
    simp only [Takes, List.length_cons] at this ⊢
    omega
  | _, _, _, .expr h => h.takes
  | _, _, _, .noStatement => Nat.le_refl _
  | _, _, _, .emptyStatement h => Nat.le_succ_of_le h.takes
  | _, _, _, .terminated hs h => by
    have hs := hs.takes
    have h := h.takes
    simp only [Takes, List.length_cons] at hs h ⊢
    omega
  | _, _, _, .unterminated hs _ h => by
    have hs := hs.takes
    have h := h.takes
    simp only [Takes] at hs h ⊢
    omega
termination_by structural _ _ _ h => h

theorem arguments_length_lt : ∀ {es : List Expr} {ts rest : List Lexeme},
    CommaSeparated (fun e => Derives (.expr .equals e)) .rightParen es ts rest →
      rest.length < ts.length
  | _, _, _, .none => by simp
  | _, _, _, .last h => Nat.lt_of_succ_lt h.takes
  | _, _, _, .more h hs => takes_trans h.takes (arguments_length_lt hs)
termination_by structural _ _ _ h => h

end

end Derives

end ExprScript
