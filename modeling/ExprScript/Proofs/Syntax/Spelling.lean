import ExprScript.Proofs.Grammar
import ExprScript.Proofs.Lexer.Spelling
import ExprScript.Proofs.Syntax

/-!
# The written form of a tree as tokens

`Expr.tokens` spells a tree as `Expr.text` writes it, with tokens in place of characters.
Where the names are names and the numbers are not negative, as in every tree that was
parsed (`Derives.spelled`), these are the tokens of the written form.

* `Expr.tokensOf_text`, `Stmt.tokensOf_text`, `Block.tokensOf_text`: the tokens of written
  forms.
* `Derives.spelled`: what is parsed from a text can be spelled.
-/

namespace ExprScript

def commaTokens : List (List Token) → List Token
  | [] => []
  | [ts] => ts
  | ts :: tss => ts ++ .comma :: commaTokens tss

def parameterTokens (parameters : List Identifier) : List Token :=
  commaTokens (parameters.map fun id => [.identifier id.name])

def boolToken : Bool → Token
  | true => .trueWord
  | false => .falseWord

mutual

def Expr.tokens : Expr → List Token
  | .identifier id => [.identifier id.name]
  | .integer n _ => [.integer (Numeral.write n)]
  | .boolean b _ => [boolToken b]
  | .prefixed op operand _ => .leftParen :: op.sign :: (operand.tokens ++ [.rightParen])
  | .infixed left op right _ =>
    .leftParen :: (left.tokens ++ op.sign :: (right.tokens ++ [.rightParen]))
  | .conditional condition consequence none _ => .ifWord :: (condition.tokens ++ consequence.tokens)
  | .conditional condition consequence (some alternative) _ =>
    .ifWord :: (condition.tokens ++ (consequence.tokens ++ .elseWord :: alternative.tokens))
  | .function parameters body _ =>
    .fnWord :: .leftParen :: (parameterTokens parameters ++ .rightParen :: body.tokens)
  | .call callee arguments _ =>
    callee.tokens ++ .leftParen :: (commaTokens (Expr.tokensEach arguments) ++ [.rightParen])

def Expr.tokensEach : List Expr → List (List Token)
  | [] => []
  | e :: es => e.tokens :: Expr.tokensEach es

/-- The tokens of the written form of a statement; an expression has no terminator. -/
def Stmt.tokens : Stmt → List Token
  | .bind target value _ =>
    .letWord :: .identifier target.name :: .assign :: (value.tokens ++ [.semicolon])
  | .ret value _ => .returnWord :: (value.tokens ++ [.semicolon])
  | .expr value _ => value.tokens
  | .block body => body.tokens

def Stmt.tokensAll : List Stmt → List Token
  | [] => []
  | s :: ss => s.tokens ++ Stmt.tokensAll ss

def Block.tokens : Block → List Token
  | .mk statements _ => .leftBrace :: (Stmt.tokensAll statements ++ [.rightBrace])

end

mutual

/-- All names in an expression are names, its numbers are not negative, and no block in it
is a statement of its own. -/
def Expr.Spelled : Expr → Prop
  | .identifier id => IsName id.name
  | .integer n _ => 0 ≤ n.toInt
  | .boolean _ _ => True
  | .prefixed _ operand _ => operand.Spelled
  | .infixed left _ right _ => left.Spelled ∧ right.Spelled
  | .conditional condition consequence alternative _ =>
    condition.Spelled ∧ consequence.Spelled ∧ Block.SpelledOption alternative
  | .function parameters body _ => (∀ id ∈ parameters, IsName id.name) ∧ body.Spelled
  | .call callee arguments _ => callee.Spelled ∧ Expr.SpelledAll arguments

def Expr.SpelledAll : List Expr → Prop
  | [] => True
  | e :: es => e.Spelled ∧ Expr.SpelledAll es

def Stmt.Spelled : Stmt → Prop
  | .bind target value _ => IsName target.name ∧ value.Spelled
  | .ret value _ => value.Spelled
  | .expr value _ => value.Spelled
  | .block _ => False

def Stmt.SpelledAll : List Stmt → Prop
  | [] => True
  | s :: ss => s.Spelled ∧ Stmt.SpelledAll ss

def Block.Spelled : Block → Prop
  | .mk statements _ => Stmt.SpelledAll statements

def Block.SpelledOption : Option Block → Prop
  | none => True
  | some b => b.Spelled

end

mutual

theorem Expr.Spelled.inner : ∀ {e : Expr}, e.Spelled → ∀ s ∈ e.innerStatements, s.Spelled
  | .identifier _, _ => by simp [Expr.innerStatements]
  | .integer _ _, _ => by simp [Expr.innerStatements]
  | .boolean _ _, _ => by simp [Expr.innerStatements]
  | .prefixed _ operand _, h => Expr.Spelled.inner (e := operand) h
  | .infixed _ _ _ _, h => List.forall_mem_append.mpr ⟨h.1.inner, h.2.inner⟩
  | .conditional _ _ none _, h => List.forall_mem_append.mpr ⟨h.1.inner, h.2.1.inner⟩
  | .conditional _ _ (some alternative) _, h =>
    List.forall_mem_append.mpr ⟨h.1.inner, List.forall_mem_append.mpr
      ⟨h.2.1.inner, Block.Spelled.inner (b := alternative) h.2.2⟩⟩
  | .function _ _ _, h => h.2.inner
  | .call _ _ _, h => List.forall_mem_append.mpr ⟨h.1.inner, Expr.SpelledAll.inner h.2⟩

theorem Expr.SpelledAll.inner : ∀ {es : List Expr}, Expr.SpelledAll es →
    ∀ s ∈ Expr.innerStatementsAll es, s.Spelled
  | [], _ => by simp [Expr.innerStatementsAll]
  | _ :: _, h => List.forall_mem_append.mpr ⟨h.1.inner, Expr.SpelledAll.inner h.2⟩

theorem Stmt.Spelled.inner : ∀ {s : Stmt}, s.Spelled → ∀ s' ∈ s.withInner, s'.Spelled
  | .bind _ _ _, h => List.forall_mem_cons.mpr ⟨h, h.2.inner⟩
  | .ret value _, h => List.forall_mem_cons.mpr ⟨h, Expr.Spelled.inner (e := value) h⟩
  | .expr value _, h => List.forall_mem_cons.mpr ⟨h, Expr.Spelled.inner (e := value) h⟩

theorem Stmt.SpelledAll.inner : ∀ {ss : List Stmt}, Stmt.SpelledAll ss →
    ∀ s ∈ Stmt.withInnerAll ss, s.Spelled
  | [], _ => by simp [Stmt.withInnerAll]
  | _ :: _, h => List.forall_mem_append.mpr ⟨h.1.inner, Stmt.SpelledAll.inner h.2⟩

theorem Block.Spelled.inner : ∀ {b : Block}, b.Spelled → ∀ s ∈ b.innerStatements, s.Spelled
  | .mk _ _, h => Stmt.SpelledAll.inner h

end

/-! ### How a written form begins -/

/-- The written form of the expression begins with a parenthesis. -/
def Expr.opens : Expr → Bool
  | .prefixed _ _ _ => true
  | .infixed _ _ _ _ => true
  | .call callee _ _ => callee.opens
  | _ => false

theorem Expr.text_starts : ∀ {e : Expr}, e.Spelled →
    ∃ c cs, e.text.toList = c :: cs ∧ if e.opens then c = '(' else isNamePart c = true
  | .identifier id, ⟨c, cs, hname, hc, _, _⟩ => ⟨c, cs, hname, isNamePart_of_isNameStart hc⟩
  | .integer n _, h => by
    obtain ⟨c, cs, htext, hc, -⟩ := Numeral.isNumeral_write h
    exact ⟨c, cs, htext, isNamePart_of_isDigit hc⟩
  | .boolean true _, _ => ⟨'t', _, by simp [Expr.text, boolText]; rfl, rfl⟩
  | .boolean false _, _ => ⟨'f', _, by simp [Expr.text, boolText]; rfl, rfl⟩
  | .prefixed op operand _, _ => ⟨'(', _, by simp [Expr.text]; rfl, rfl⟩
  | .infixed left op right _, _ => ⟨'(', _, by simp [Expr.text]; rfl, rfl⟩
  | .conditional _ _ none _, _ => ⟨'i', _, by simp [Expr.text]; rfl, rfl⟩
  | .conditional _ _ (some _) _, _ => ⟨'i', _, by simp [Expr.text]; rfl, rfl⟩
  | .function _ _ _, _ => ⟨'f', _, by simp [Expr.text]; rfl, rfl⟩
  | .call callee args _, h => by
    obtain ⟨c, cs, hc, hopens⟩ := Expr.text_starts h.1
    exact ⟨c, _, by simp [Expr.text, hc]; rfl, hopens⟩

/-- Where the names are names, only a parenthesis of the tree can come first. -/
theorem Expr.opens_iff {e : Expr} (h : e.Spelled) :
    e.opens = true ↔ e.text.toList.head? = some '(' := by
  obtain ⟨c, cs, hc, hopens⟩ := Expr.text_starts h
  rw [hc, List.head?_cons, Option.some.injEq]
  split at hopens
  · next ho => simp [ho, hopens]
  · next ho =>
    refine ⟨fun h => absurd h ho, ?_⟩
    rintro rfl
    exact absurd hopens (by decide)

/-! ### Tokens of written forms -/

theorem tokensOf_infixOp (op : InfixOp) (cs : List Char) :
    tokensOf (op.text.toList ++ ' ' :: cs) = op.sign :: tokensOf cs := by
  have hop : tokensOf op.text.toList = [op.sign] := by cases op <;> decide +kernel
  rw [tokensOf_append rfl, tokensOf_blank (by decide) rfl, hop]
  rfl

/-- The sign of a prefix operator goes together with an equality sign only. -/
theorem tokensOf_prefixOp (op : PrefixOp) {c : Char} (hc : c ≠ '=') (cs : List Char) :
    tokensOf (op.text.toList ++ c :: cs) = op.sign :: tokensOf (c :: cs) := by
  cases op with
  | negate => exact tokensOf_sign rfl _
  | not =>
    have hread : readToken '!' (c :: cs) = (.bang, c :: cs) := by
      simp [readToken, hc, isNameStart]
      rfl
    show tokensOf ('!' :: c :: cs) = _
    rw [tokensOf_cons (by decide) rfl, hread]
    rfl

theorem tokensOf_commaJoined : ∀ texts : List String, tokensOf (commaJoined texts).toList =
    commaTokens (texts.map fun text => tokensOf text.toList)
  | [] => tokensOf_nil
  | [text] => rfl
  | text :: next :: texts => by
    have hchars : (commaJoined (text :: next :: texts)).toList =
        text.toList ++ ',' :: ' ' :: (commaJoined (next :: texts)).toList := by simp [commaJoined]
    rw [hchars, tokensOf_append rfl, tokensOf_sign rfl, tokensOf_blank (by decide) rfl,
      tokensOf_commaJoined (next :: texts)]
    rfl

theorem tokensOf_parameters {parameters : List Identifier}
    (h : ∀ id ∈ parameters, IsName id.name) :
    tokensOf (parametersText parameters).toList = parameterTokens parameters := by
  rw [parametersText, tokensOf_commaJoined, List.map_map, parameterTokens]
  exact congrArg commaTokens (List.map_congr_left fun id hid => tokensOf_name (h id hid))

mutual

/-- **The tokens of the written form of an expression.** -/
theorem Expr.tokensOf_text : ∀ {e : Expr}, e.Spelled → tokensOf e.text.toList = e.tokens
  | .identifier id, h => tokensOf_name h
  | .integer n _, h => tokensOf_numeral (Numeral.isNumeral_write h)
  | .boolean b line, _ => by
    have hb : tokensOf (boolText b).toList = [boolToken b] := by cases b <;> decide +kernel
    exact hb
  | .prefixed op operand line, h => by
    obtain ⟨c, cs, hc, hstart⟩ := Expr.text_starts (e := operand) h
    have hchars : (Expr.prefixed op operand line).text.toList =
        '(' :: (op.text.toList ++ (operand.text.toList ++ [')'])) := by simp [Expr.text]
    have hne : c ≠ '=' := by
      rintro rfl
      split at hstart
      · exact absurd hstart (by decide)
      · exact absurd hstart (by decide)
    have hstop : tokensOf (operand.text.toList ++ [')']) = operand.tokens ++ [.rightParen] := by
      rw [tokensOf_append rfl, Expr.tokensOf_text (e := operand) h, tokensOf_sign rfl, tokensOf_nil]
      rfl
    rw [hchars, tokensOf_sign rfl, hc, List.cons_append, tokensOf_prefixOp op hne,
      ← List.cons_append, ← hc, hstop]
    rfl
  | .infixed left op right line, h => by
    have hchars : (Expr.infixed left op right line).text.toList = '(' :: (left.text.toList ++
        ' ' :: (op.text.toList ++ ' ' :: (right.text.toList ++ [')']))) := by
      simp [Expr.text]
    rw [hchars, tokensOf_sign rfl, tokensOf_append rfl, Expr.tokensOf_text h.1,
      tokensOf_blank (by decide) rfl, tokensOf_infixOp, tokensOf_append rfl,
      Expr.tokensOf_text h.2, tokensOf_sign rfl, tokensOf_nil]
    rfl
  | .conditional condition consequence none line, h => by
    have hchars : (Expr.conditional condition consequence none line).text.toList =
        "if".toList ++ ' ' :: (condition.text.toList ++ ' ' :: consequence.text.toList) := by
      simp [Expr.text]
    have hif : tokensOf "if".toList = [.ifWord] := by decide +kernel
    rw [hchars, tokensOf_append rfl, tokensOf_blank (by decide) rfl, tokensOf_append rfl,
      tokensOf_blank (by decide) rfl, hif, Expr.tokensOf_text h.1, Block.tokensOf_text h.2.1]
    rfl
  | .conditional condition consequence (some alternative) line, h => by
    have hchars : (Expr.conditional condition consequence (some alternative) line).text.toList =
        "if".toList ++ ' ' :: (condition.text.toList ++ ' ' :: (consequence.text.toList ++
          ' ' :: ("else".toList ++ ' ' :: alternative.text.toList))) := by
      simp [Expr.text]
    have hif : tokensOf "if".toList = [.ifWord] := by decide +kernel
    have helse : tokensOf "else".toList = [.elseWord] := by decide +kernel
    rw [hchars, tokensOf_append rfl, tokensOf_blank (by decide) rfl, tokensOf_append rfl,
      tokensOf_blank (by decide) rfl, tokensOf_append rfl, tokensOf_blank (by decide) rfl,
      tokensOf_append rfl, tokensOf_blank (by decide) rfl, hif, helse, Expr.tokensOf_text h.1,
      Block.tokensOf_text h.2.1, Block.tokensOf_text (b := alternative) h.2.2]
    rfl
  | .function parameters body line, h => by
    have hchars : (Expr.function parameters body line).text.toList =
        "fn".toList ++ '(' :: ((parametersText parameters).toList ++
          ')' :: ' ' :: body.text.toList) := by
      simp [Expr.text]
    have hfn : tokensOf "fn".toList = [.fnWord] := by decide +kernel
    rw [hchars, tokensOf_append rfl, tokensOf_sign rfl, tokensOf_append rfl, tokensOf_sign rfl,
      tokensOf_blank (by decide) rfl, hfn, tokensOf_parameters h.1, Block.tokensOf_text h.2]
    rfl
  | .call callee args line, h => by
    have hchars : (Expr.call callee args line).text.toList =
        callee.text.toList ++ '(' :: ((commaJoined (Expr.texts args)).toList ++ [')']) := by
      simp [Expr.text]
    rw [hchars, tokensOf_append rfl, tokensOf_sign rfl, tokensOf_append rfl, tokensOf_sign rfl,
      tokensOf_nil, tokensOf_commaJoined, Expr.tokensOf_text h.1, Expr.tokensOf_texts h.2]
    rfl

theorem Expr.tokensOf_texts : ∀ {es : List Expr}, Expr.SpelledAll es →
    (Expr.texts es).map (fun text => tokensOf text.toList) = Expr.tokensEach es
  | [], _ => rfl
  | e :: es, h => by
    rw [Expr.texts, List.map_cons, Expr.tokensOf_text h.1, Expr.tokensOf_texts h.2, Expr.tokensEach]

/-- **The tokens of the written form of a statement.** -/
theorem Stmt.tokensOf_text : ∀ {s : Stmt}, s.Spelled → tokensOf s.text.toList = s.tokens
  | .bind target value line, h => by
    have hchars : (Stmt.bind target value line).text.toList =
        "let".toList ++ ' ' :: (target.name.toList ++ ' ' :: '=' :: ' ' ::
          (value.text.toList ++ [';'])) := by
      simp [Stmt.text]
    have hlet : tokensOf "let".toList = [.letWord] := by decide +kernel
    have hassign (cs : List Char) : tokensOf ('=' :: ' ' :: cs) = .assign :: tokensOf cs := by
      rw [tokensOf_cons (by decide) rfl]
      exact congrArg (Token.assign :: ·) (tokensOf_blank (by decide) rfl cs)
    rw [hchars, tokensOf_append rfl, tokensOf_blank (by decide) rfl, tokensOf_append rfl,
      tokensOf_blank (by decide) rfl, hassign, tokensOf_append rfl, tokensOf_sign rfl,
      tokensOf_nil, hlet, tokensOf_name h.1, Expr.tokensOf_text h.2]
    rfl
  | .ret value line, h => by
    have hchars : (Stmt.ret value line).text.toList =
        "return".toList ++ ' ' :: (value.text.toList ++ [';']) := by
      simp [Stmt.text]
    have hreturn : tokensOf "return".toList = [.returnWord] := by decide +kernel
    rw [hchars, tokensOf_append rfl, tokensOf_blank (by decide) rfl, tokensOf_append rfl,
      tokensOf_sign rfl, tokensOf_nil, hreturn, Expr.tokensOf_text (e := value) h]
    rfl
  | .expr value _, h => Expr.tokensOf_text (e := value) h

theorem Stmt.tokensOf_spacedText : ∀ {ss : List Stmt}, Stmt.SpelledAll ss →
    tokensOf (Stmt.spacedText ss).toList = Stmt.tokensAll ss
  | [], _ => tokensOf_nil
  | s :: ss, h => by
    have hchars : (Stmt.spacedText (s :: ss)).toList =
        s.text.toList ++ ' ' :: (Stmt.spacedText ss).toList := by simp [Stmt.spacedText]
    rw [hchars, tokensOf_append rfl, tokensOf_blank (by decide) rfl, Stmt.tokensOf_text h.1,
      Stmt.tokensOf_spacedText h.2, Stmt.tokensAll]

/-- **The tokens of the written form of a block.** -/
theorem Block.tokensOf_text : ∀ {b : Block}, b.Spelled → tokensOf b.text.toList = b.tokens
  | .mk ss line, h => by
    have hchars : (Block.mk ss line).text.toList =
        '\x7b' :: ' ' :: ((Stmt.spacedText ss).toList ++ ['\x7d']) := by simp [Block.text]
    rw [hchars, tokensOf_sign rfl, tokensOf_blank (by decide) rfl, tokensOf_append rfl,
      tokensOf_sign rfl, tokensOf_nil, Stmt.tokensOf_spacedText h]
    rfl

end

/-! ### What is parsed -/

/-- All lexemes are those of a text. -/
def AllEmitted (ts : List Lexeme) : Prop :=
  ∀ l ∈ ts, l.token.Emitted

theorem AllEmitted.head {l : Lexeme} {ts : List Lexeme} (h : AllEmitted (l :: ts)) :
    l.token.Emitted :=
  (List.forall_mem_cons.mp h).1

theorem AllEmitted.tail {l : Lexeme} {ts : List Lexeme} (h : AllEmitted (l :: ts)) :
    AllEmitted ts :=
  (List.forall_mem_cons.mp h).2

namespace Derives

/-- What the phrase is made of can be spelled, and the rest is still the lexemes of a text. -/
def SpelledIn : Phrase → List Lexeme → Prop
  | .expr _ e, rest => e.Spelled ∧ AllEmitted rest
  | .block b, rest => b.Spelled ∧ AllEmitted rest
  | .statement s, rest => s.Spelled ∧ AllEmitted rest
  | .statements ss, rest => Stmt.SpelledAll ss ∧ AllEmitted rest

theorem spelled_parameters {closing : Token} {parameters : List Identifier}
    {ts rest : List Lexeme} (h : CommaSeparated IsParameter closing parameters ts rest)
    (hts : AllEmitted ts) : (∀ id ∈ parameters, IsName id.name) ∧ AllEmitted rest := by
  induction h with
  | none => exact ⟨by simp, hts.tail⟩
  | last hp =>
    rw [hp] at hts
    exact ⟨List.forall_mem_singleton.mpr hts.head, hts.tail.tail⟩
  | more hp _ ih =>
    rw [hp] at hts
    obtain ⟨hnames, hrest⟩ := ih hts.tail.tail
    exact ⟨List.forall_mem_cons.mpr ⟨hts.head, hnames⟩, hrest⟩

mutual

/-- **What is parsed from a text can be spelled.** -/
theorem spelled : ∀ {x : Phrase} {ts rest : List Lexeme}, Derives x ts rest → AllEmitted ts →
    SpelledIn x rest
  | _, _, _, .tighter _ h, hts => h.spelled hts
  | _, _, _, .infixed hl _ hr, hts => by
    have left := hl.spelled hts
    have right := hr.spelled left.2.tail
    exact ⟨⟨left.1, right.1⟩, right.2⟩
  | _, _, _, .prefixed h, hts => h.spelled hts.tail
  | _, _, _, .call hc ha, hts => by
    have callee := hc.spelled hts
    have args := spelled_arguments ha callee.2.tail
    exact ⟨⟨callee.1, args.1⟩, args.2⟩
  | _, _, _, .identifier, hts => ⟨hts.head, hts.tail⟩
  | _, _, _, .integer h, hts => ⟨Numeral.toInt_of_read hts.head h, hts.tail⟩
  | _, _, _, .trueWord, hts => ⟨trivial, hts.tail⟩
  | _, _, _, .falseWord, hts => ⟨trivial, hts.tail⟩
  | _, _, _, .group h, hts => by
    have inner := h.spelled hts.tail
    exact ⟨inner.1, inner.2.tail⟩
  | _, _, _, .conditional hc hb, hts => by
    have condition := hc.spelled hts.tail.tail
    have consequence := hb.spelled condition.2.tail
    exact ⟨⟨condition.1, consequence.1, trivial⟩, consequence.2⟩
  | _, _, _, .conditionalElse hc hb ha, hts => by
    have condition := hc.spelled hts.tail.tail
    have consequence := hb.spelled condition.2.tail
    have alternative := ha.spelled consequence.2.tail
    exact ⟨⟨condition.1, consequence.1, alternative.1⟩, alternative.2⟩
  | _, _, _, .function hp hb, hts => by
    have parameters := spelled_parameters hp hts.tail.tail
    have body := hb.spelled parameters.2
    exact ⟨⟨parameters.1, body.1⟩, body.2⟩
  | _, _, _, .block h, hts => by
    have statements := h.spelled hts.tail
    exact ⟨statements.1, statements.2.tail⟩
  | _, _, _, .bind h, hts => by
    have value := h.spelled hts.tail.tail.tail
    exact ⟨⟨hts.tail.head, value.1⟩, value.2⟩
  | _, _, _, .ret h, hts => h.spelled hts.tail
  | _, _, _, .expr h, hts => h.spelled hts
  | _, _, _, .noStatement, hts => ⟨trivial, hts⟩
  | _, _, _, .emptyStatement h, hts => h.spelled hts.tail
  | _, _, _, .terminated hs h, hts => by
    have statement := hs.spelled hts
    have others := h.spelled statement.2.tail
    exact ⟨⟨statement.1, others.1⟩, others.2⟩
  | _, _, _, .unterminated hs _ h, hts => by
    have statement := hs.spelled hts
    have others := h.spelled statement.2
    exact ⟨⟨statement.1, others.1⟩, others.2⟩
termination_by structural _ _ _ h => h

theorem spelled_arguments : ∀ {es : List Expr} {ts rest : List Lexeme},
    CommaSeparated (fun e => Derives (.expr .equals e)) .rightParen es ts rest →
      AllEmitted ts → Expr.SpelledAll es ∧ AllEmitted rest
  | _, _, _, .none, hts => ⟨trivial, hts.tail⟩
  | _, _, _, .last h, hts => by
    have arg := h.spelled hts
    exact ⟨⟨arg.1, trivial⟩, arg.2.tail⟩
  | _, _, _, .more h hs, hts => by
    have arg := h.spelled hts
    have others := spelled_arguments hs arg.2.tail
    exact ⟨⟨arg.1, others.1⟩, others.2⟩
termination_by structural _ _ _ h => h

end

end Derives

end ExprScript
