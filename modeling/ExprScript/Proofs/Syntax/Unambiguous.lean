import ExprScript.Proofs.Parser.Rereading

/-!
# Written forms are unambiguous

Two trees that were parsed have the same written form only if they are the same up to line
numbers (`written_form_unambiguous`), although not every written form can be read again by the
parser, and although calls, conditionals and blocks share their delimiters.

What is proved of a tree is a little more: in front of some rest its written form tells the tree
and where the rest begins (`Unambiguous`), so the parts of a tree can be taken off the front one
after the other.  What the rest may be depends on the tree.  A block ends with its brace; behind
an expression there is no parenthesis, which would begin its arguments, and no `else`, which would
belong to it (`Terminates`).  In a block the statement behind an expression can begin with a
parenthesis too, but there is a space before it.

A call is written behind its callee.  So what is an induction on trees otherwise is stated for an
expression that is called with any lists of arguments (`Expr.CalledUnambiguous`): an expression
that is no call is found at the front (`Expr.HeadUnambiguous.called`), and a call hands its
arguments on to its callee (`Expr.CalledUnambiguous.call`).  How a written form starts says which
constructor is at the front (`form_eq`).

* `Expr.calledUnambiguous`, `Stmt.unambiguous`, `Block.unambiguous`: all trees.
* `written_form_unambiguous`: statements, expressions and blocks of programs.
-/

namespace ExprScript

/-! ### Where a written form ends -/

/-- What may come behind a word: nothing that goes on with it, and no `else`. -/
def Delimits (r : List Char) : Prop :=
  (∀ d ∈ r.head?, isDelimiter d = true) ∧ ¬ " else ".toList <+: r

/-- What may come behind an expression: no arguments either. -/
def Terminates (r : List Char) : Prop :=
  Delimits r ∧ r.head? ≠ some '('

theorem terminates_nil : Terminates [] :=
  ⟨⟨by simp, by simp⟩, by simp⟩

theorem delimits_cons {d : Char} (hd : isDelimiter d = true) (hspace : d ≠ ' ') (r : List Char) :
    Delimits (d :: r) := by
  refine ⟨by simpa using hd, fun h => ?_⟩
  exact hspace (List.cons_prefix_cons.mp h).1.symm

theorem terminates_cons {d : Char} (hd : isDelimiter d = true) (hspace : d ≠ ' ')
    (hparen : d ≠ '(') (r : List Char) : Terminates (d :: r) :=
  ⟨delimits_cons hd hspace r, by simpa using hparen⟩

theorem terminates_space {c : Char} (hc : c ≠ 'e') (r : List Char) :
    Terminates (' ' :: c :: r) := by
  refine ⟨⟨by simp; decide, fun h => ?_⟩, by simp⟩
  exact hc (List.cons_prefix_cons.mp (List.cons_prefix_cons.mp h).2).1.symm

theorem Delimits.tokensOf_append {r : List Char} (hr : Delimits r) (cs : List Char) :
    tokensOf (cs ++ r) = tokensOf cs ++ tokensOf r := by
  cases r with
  | nil => rw [tokensOf_nil, List.append_nil, List.append_nil]
  | cons d r => exact ExprScript.tokensOf_append (hr.1 d rfl) cs r

/-! ### Unambiguous written forms -/

/-- Among the things with the property `P` only this one is written as it is, up to `key`, and
its end can be told, if what comes behind has the property `C`. -/
def Unambiguous {α β : Type} (text : α → String) (key : α → β) (P : α → Prop)
    (C : List Char → Prop) (a : α) : Prop :=
  ∀ b r r', P b → C r → C r' → (text a).toList ++ r = (text b).toList ++ r' →
    key a = key b ∧ r = r'

/-- The expression can be told, with its end. -/
def Expr.Unambiguous : Expr → Prop :=
  ExprScript.Unambiguous Expr.text Expr.unlined Expr.Spelled Terminates

def Stmt.Unambiguous : Stmt → Prop :=
  ExprScript.Unambiguous Stmt.text Stmt.unlined Stmt.Spelled Terminates

def Block.Unambiguous : Block → Prop :=
  ExprScript.Unambiguous Block.text Block.unlined Block.Spelled fun _ => True

def Expr.isCall : Expr → Bool
  | .call _ _ _ => true
  | _ => false

/-- The expression can be told from those that are no calls, also in front of arguments. -/
def Expr.HeadUnambiguous : Expr → Prop :=
  ExprScript.Unambiguous Expr.text Expr.unlined (fun e => e.Spelled ∧ e.isCall = false) Delimits

/-! ### Lists with commas -/

section
variable {α β : Type} {text : α → String} {key : α → β} {P : α → Prop} {C : List Char → Prop}

/-- What is written behind an item of a list. -/
def otherItems : List String → List Char → List Char
  | [], r => ')' :: r
  | text :: texts, r => ',' :: ' ' :: (text.toList ++ otherItems texts r)

theorem toList_commaJoined (first : String) (texts : List String) (r : List Char) :
    (commaJoined (first :: texts)).toList ++ ')' :: r = first.toList ++ otherItems texts r := by
  induction texts generalizing first with
  | nil => rfl
  | cons next texts ih => simp [commaJoined, otherItems, ← ih]

theorem unambiguous_otherItems (hC : ∀ texts r, C (otherItems texts r)) {as bs : List α}
    (ha : ∀ a ∈ as, Unambiguous text key P C a) (hb : ∀ b ∈ bs, P b) {r r' : List Char}
    (h : otherItems (as.map text) r = otherItems (bs.map text) r') :
    as.map key = bs.map key ∧ r = r' := by
  induction as generalizing bs with
  | nil =>
    cases bs with
    | nil => exact ⟨rfl, (List.cons.inj h).2⟩
    | cons b bs => simp [otherItems] at h
  | cons a as ih =>
    cases bs with
    | nil => simp [otherItems] at h
    | cons b bs =>
      obtain ⟨ha, has⟩ := List.forall_mem_cons.mp ha
      obtain ⟨hb, hbs⟩ := List.forall_mem_cons.mp hb
      simp only [List.map_cons, otherItems, List.cons.injEq, true_and] at h
      obtain ⟨hkey, hrest⟩ := ha b _ _ hb (hC _ _) (hC _ _) h
      obtain ⟨hkeys, hr⟩ := ih has hbs hrest
      exact ⟨by rw [List.map_cons, List.map_cons, hkey, hkeys], hr⟩

/-- A list is told by its items, none of which begins with the closing parenthesis. -/
theorem unambiguous_commaJoined (hC : ∀ texts r, C (otherItems texts r))
    (hstart : ∀ a, P a → ∃ c cs, (text a).toList = c :: cs ∧ c ≠ ')') {as bs : List α}
    (hread : ∀ a ∈ as, Unambiguous text key P C a) (ha : ∀ a ∈ as, P a) (hb : ∀ b ∈ bs, P b)
    {r r' : List Char} (h : (commaJoined (as.map text)).toList ++ ')' :: r =
      (commaJoined (bs.map text)).toList ++ ')' :: r') :
    as.map key = bs.map key ∧ r = r' := by
  have hfirst {a : α} {as : List α} {r r' : List Char} (ha : P a) :
      ')' :: r' ≠ (commaJoined ((a :: as).map text)).toList ++ ')' :: r := by
    obtain ⟨c, cs, htext, hc⟩ := hstart a ha
    rw [List.map_cons, toList_commaJoined, htext]
    exact fun h => hc (List.cons.inj h).1.symm
  cases as with
  | nil =>
    cases bs with
    | nil => exact ⟨rfl, (List.cons.inj h).2⟩
    | cons b bs => exact absurd h (hfirst (hb b List.mem_cons_self))
  | cons a as =>
    cases bs with
    | nil => exact absurd h.symm (hfirst (ha a List.mem_cons_self))
    | cons b bs =>
      obtain ⟨hread, hreads⟩ := List.forall_mem_cons.mp hread
      obtain ⟨hb, hbs⟩ := List.forall_mem_cons.mp hb
      rw [List.map_cons, List.map_cons, toList_commaJoined, toList_commaJoined] at h
      obtain ⟨hkey, hrest⟩ := hread b _ _ hb (hC _ _) (hC _ _) h
      obtain ⟨hkeys, hr⟩ := unambiguous_otherItems hC hreads hbs hrest
      exact ⟨by rw [List.map_cons, List.map_cons, hkey, hkeys], hr⟩

end

/-! ### Names -/

theorem delimits_otherItems (texts : List String) (r : List Char) :
    Delimits (otherItems texts r) := by
  cases texts with
  | nil => exact delimits_cons (by decide) (by decide) _
  | cons text texts => exact delimits_cons (by decide) (by decide) _

theorem terminates_otherItems (texts : List String) (r : List Char) :
    Terminates (otherItems texts r) := by
  cases texts with
  | nil => exact terminates_cons (by decide) (by decide) (by decide) _
  | cons text texts => exact terminates_cons (by decide) (by decide) (by decide) _

theorem unambiguous_name {id : Identifier} (hid : IsName id.name) :
    Unambiguous Identifier.name Identifier.unlined (fun id => IsName id.name) Delimits id := by
  intro id' r r' hid' hr hr' h
  have ht : tokensOf (id.name.toList ++ r) = tokensOf (id'.name.toList ++ r') := by rw [h]
  rw [hr.tokensOf_append, hr'.tokensOf_append, tokensOf_name hid, tokensOf_name hid'] at ht
  have hname : id.name = id'.name := Token.identifier.inj (List.cons.inj ht).1
  refine ⟨by rw [Identifier.unlined, Identifier.unlined, hname], ?_⟩
  rw [hname] at h
  exact List.append_cancel_left h

theorem unambiguous_parameters {parameters parameters' : List Identifier}
    (h : ∀ id ∈ parameters, IsName id.name) (h' : ∀ id ∈ parameters', IsName id.name)
    {r r' : List Char} (htext : (parametersText parameters).toList ++ ')' :: r =
      (parametersText parameters').toList ++ ')' :: r') :
    parameters.map Identifier.unlined = parameters'.map Identifier.unlined ∧ r = r' := by
  refine unambiguous_commaJoined delimits_otherItems ?_
    (fun id hid => unambiguous_name (h id hid)) h h' htext
  rintro id ⟨c, cs, hname, hc, -⟩
  refine ⟨c, cs, hname, ?_⟩
  rintro rfl
  exact absurd hc (by decide)

/-! ### Heads -/

section
variable {e e' : Expr} {r r' : List Char}

theorem tokens_append_eq (he : e.Spelled) (he' : e'.Spelled) (hr : Delimits r) (hr' : Delimits r')
    (h : e.text.toList ++ r = e'.text.toList ++ r') :
    e.tokens ++ tokensOf r = e'.tokens ++ tokensOf r' := by
  rw [← Expr.tokensOf_text he, ← Expr.tokensOf_text he', ← hr.tokensOf_append,
    ← hr'.tokensOf_append, h]

def Expr.form : Expr → StartForm
  | .identifier _ => .identifier
  | .integer _ _ => .integer
  | .boolean _ _ => .boolean
  | .prefixed _ _ _ => .group
  | .infixed _ _ _ _ => .group
  | .conditional _ _ _ _ => .conditional
  | .function _ _ _ => .function
  | .call callee _ _ => callee.form

theorem Expr.form_ne_prefixed : ∀ e : Expr, e.form ≠ .prefixed
  | .call callee _ _ => callee.form_ne_prefixed
  | .identifier _ | .integer _ _ | .boolean _ _ | .prefixed _ _ _ | .infixed _ _ _ _
  | .conditional _ _ _ _ | .function _ _ _ => by simp [form]

theorem Expr.tokens_form : ∀ e : Expr, ∃ t ts, e.tokens = t :: ts ∧ t.startForm? = some e.form
  | .identifier _ => ⟨_, _, rfl, rfl⟩
  | .integer _ _ => ⟨_, _, rfl, rfl⟩
  | .boolean true _ => ⟨_, _, rfl, rfl⟩
  | .boolean false _ => ⟨_, _, rfl, rfl⟩
  | .prefixed _ _ _ => ⟨_, _, rfl, rfl⟩
  | .infixed _ _ _ _ => ⟨_, _, rfl, rfl⟩
  | .conditional _ _ none _ => ⟨_, _, rfl, rfl⟩
  | .conditional _ _ (some _) _ => ⟨_, _, rfl, rfl⟩
  | .function _ _ _ => ⟨_, _, rfl, rfl⟩
  | .call callee _ _ => by
    obtain ⟨t, ts, hts, ht⟩ := callee.tokens_form
    exact ⟨t, _, by rw [Expr.tokens, hts]; rfl, ht⟩

theorem form_eq (he : e.Spelled) (he' : e'.Spelled) (hr : Delimits r) (hr' : Delimits r')
    (h : e.text.toList ++ r = e'.text.toList ++ r') : e.form = e'.form := by
  have ht := tokens_append_eq he he' hr hr' h
  obtain ⟨t, ts, hts, hform⟩ := e.tokens_form
  obtain ⟨t', ts', hts', hform'⟩ := e'.tokens_form
  rw [hts, hts'] at ht
  obtain rfl : t = t' := (List.cons.inj ht).1
  exact Option.some.inj (hform.symm.trans hform')

theorem headUnambiguous_identifier {id : Identifier} (hid : IsName id.name) :
    (Expr.identifier id).HeadUnambiguous := by
  rintro e' r r' ⟨he', hcall⟩ hr hr' h
  have hform := form_eq (e := .identifier id) hid he' hr hr' h
  cases e' with
  | identifier id' =>
    obtain ⟨hkey, hrest⟩ := unambiguous_name hid id' r r' he' hr hr' h
    exact ⟨by rw [Expr.unlined, Expr.unlined, hkey], hrest⟩
  | call callee args line => simp [Expr.isCall] at hcall
  | _ => simp [Expr.form] at hform

theorem headUnambiguous_integer {n : Int64} (hn : 0 ≤ n.toInt) (line : Nat) :
    (Expr.integer n line).HeadUnambiguous := by
  rintro e' r r' ⟨he', hcall⟩ hr hr' h
  have hform := form_eq (e := .integer n line) hn he' hr hr' h
  cases e' with
  | integer n' line' =>
    have ht := tokens_append_eq (e := .integer n line) hn he' hr hr' h
    have hwrite : Numeral.write n = Numeral.write n' := Token.integer.inj (List.cons.inj ht).1
    have hread : some n = some n' := by
      rw [← Numeral.read_write hn, ← Numeral.read_write he', hwrite]
    obtain rfl := Option.some.inj hread
    exact ⟨rfl, List.append_cancel_left h⟩
  | call callee args line => simp [Expr.isCall] at hcall
  | _ => simp [Expr.form] at hform

theorem headUnambiguous_boolean (b : Bool) (line : Nat) :
    (Expr.boolean b line).HeadUnambiguous := by
  rintro e' r r' ⟨he', hcall⟩ hr hr' h
  have hform := form_eq (e := .boolean b line) trivial he' hr hr' h
  cases e' with
  | boolean b' line' =>
    have ht := tokens_append_eq (e := .boolean b line) trivial he' hr hr' h
    obtain rfl : b = b' := by
      cases b <;> cases b' <;> first | rfl | simp [Expr.tokens, boolToken] at ht
    exact ⟨rfl, List.append_cancel_left h⟩
  | call callee args line => simp [Expr.isCall] at hcall
  | _ => simp [Expr.form] at hform

theorem PrefixOp.sign_injective {op op' : PrefixOp} (h : op.sign = op'.sign) : op = op' :=
  Option.some.inj ((Token.prefixOp?_eq_some_iff.mpr rfl).symm.trans
    (Token.prefixOp?_eq_some_iff.mpr h))

theorem InfixOp.sign_injective {op op' : InfixOp} (h : op.sign = op'.sign) : op = op' :=
  Option.some.inj ((Token.infixOp?_eq_some_iff.mpr rfl).symm.trans
    (Token.infixOp?_eq_some_iff.mpr h))

theorem terminates_paren (r : List Char) : Terminates (')' :: r) :=
  terminates_cons (by decide) (by decide) (by decide) r

/-- What comes behind the parenthesis tells the operations with one operand from those with
two. -/
theorem tokens_prefixed_ne_infixed {op : PrefixOp} {operand left right : Expr} {op' : InfixOp}
    {line line' : Nat} (ts ts' : List Token) :
    (Expr.prefixed op operand line).tokens ++ ts ≠
      (Expr.infixed left op' right line').tokens ++ ts' := by
  intro h
  obtain ⟨t, us, hus, hform⟩ := left.tokens_form
  rw [Expr.tokens, Expr.tokens, hus] at h
  obtain rfl : op.sign = t := (List.cons.inj (List.cons.inj h).2).1
  have hsign : op.sign.startForm? = some .prefixed := by cases op <;> rfl
  exact left.form_ne_prefixed (Option.some.inj (hform.symm.trans hsign))

theorem headUnambiguous_prefixed {operand : Expr} (hs : operand.Spelled) (ho : operand.Unambiguous)
    (op : PrefixOp) (line : Nat) : (Expr.prefixed op operand line).HeadUnambiguous := by
  rintro e' r r' ⟨he', hcall⟩ hr hr' h
  have hform := form_eq (e := .prefixed op operand line) hs he' hr hr' h
  have ht := tokens_append_eq (e := .prefixed op operand line) hs he' hr hr' h
  cases e' with
  | prefixed op' operand' line' =>
    obtain rfl : op = op' := PrefixOp.sign_injective (List.cons.inj (List.cons.inj ht).2).1
    have htext : operand.text.toList ++ ')' :: r = operand'.text.toList ++ ')' :: r' := by
      simpa [Expr.text] using h
    obtain ⟨hkey, hrest⟩ := ho operand' _ _ he' (terminates_paren r) (terminates_paren r') htext
    exact ⟨by rw [Expr.unlined, Expr.unlined, hkey], (List.cons.inj hrest).2⟩
  | infixed left op' right line' => exact absurd ht (tokens_prefixed_ne_infixed _ _)
  | call callee args line => simp [Expr.isCall] at hcall
  | _ => simp [Expr.form] at hform

theorem headUnambiguous_infixed {left right : Expr} (hs : left.Spelled ∧ right.Spelled)
    (hl : left.Unambiguous) (hright : right.Unambiguous) (op : InfixOp) (line : Nat) :
    (Expr.infixed left op right line).HeadUnambiguous := by
  rintro e' r r' ⟨he', hcall⟩ hr hr' h
  have hform := form_eq (e := .infixed left op right line) hs he' hr hr' h
  cases e' with
  | prefixed op' operand' line' =>
    have ht := tokens_append_eq (e := .infixed left op right line) hs he' hr hr' h
    exact absurd ht.symm (tokens_prefixed_ne_infixed _ _)
  | infixed left' op' right' line' =>
    have htext : left.text.toList ++ ' ' :: (op.text.toList ++
          ' ' :: (right.text.toList ++ ')' :: r)) =
        left'.text.toList ++ ' ' :: (op'.text.toList ++
          ' ' :: (right'.text.toList ++ ')' :: r')) := by
      simpa [Expr.text] using h
    have hop (op : InfixOp) (cs : List Char) : Terminates (' ' :: (op.text.toList ++ cs)) := by
      cases op <;> exact terminates_space (by decide) _
    obtain ⟨hkey, hrest⟩ := hl left' _ _ he'.1 (hop op _) (hop op' _) htext
    have hrest := (List.cons.inj hrest).2
    obtain rfl : op = op' := by
      have ht := congrArg tokensOf hrest
      rw [tokensOf_infixOp, tokensOf_infixOp] at ht
      exact InfixOp.sign_injective (List.cons.inj ht).1
    have hrest := (List.cons.inj (List.append_cancel_left hrest)).2
    obtain ⟨hkey', hrest⟩ :=
      hright right' _ _ he'.2 (terminates_paren r) (terminates_paren r') hrest
    exact ⟨by rw [Expr.unlined, Expr.unlined, hkey, hkey'], (List.cons.inj hrest).2⟩
  | call callee args line => simp [Expr.isCall] at hcall
  | _ => simp [Expr.form] at hform

theorem headUnambiguous_function {parameters : List Identifier} {body : Block}
    (hs : (∀ id ∈ parameters, IsName id.name) ∧ body.Spelled) (hb : body.Unambiguous) (line : Nat) :
    (Expr.function parameters body line).HeadUnambiguous := by
  rintro e' r r' ⟨he', hcall⟩ hr hr' h
  have hform := form_eq (e := .function parameters body line) hs he' hr hr' h
  cases e' with
  | function parameters' body' line' =>
    have htext : (parametersText parameters).toList ++ ')' :: ' ' :: (body.text.toList ++ r) =
        (parametersText parameters').toList ++ ')' :: ' ' :: (body'.text.toList ++ r') := by
      simpa [Expr.text] using h
    obtain ⟨hkey, hrest⟩ := unambiguous_parameters hs.1 he'.1 htext
    obtain ⟨hkey', hrest⟩ := hb body' r r' he'.2 trivial trivial (List.cons.inj hrest).2
    exact ⟨by rw [Expr.unlined, Expr.unlined, hkey, hkey'], hrest⟩
  | call callee args line => simp [Expr.isCall] at hcall
  | _ => simp [Expr.form] at hform

/-- What is written behind the condition and the first block of a conditional. -/
def elseText : Option Block → List Char
  | none => []
  | some b => " else ".toList ++ b.text.toList

@[simp] theorem elseText_none : elseText none = [] := rfl

@[simp] theorem elseText_some (b : Block) :
    elseText (some b) = " else ".toList ++ b.text.toList := rfl

theorem toList_conditional (condition : Expr) (consequence : Block) (alternative : Option Block)
    (line : Nat) : (Expr.conditional condition consequence alternative line).text.toList =
      "if ".toList ++ (condition.text.toList ++ ' ' :: (consequence.text.toList ++
        elseText alternative)) := by
  cases alternative <;> simp [Expr.text]

/-- An alternative can be told from none, as what comes behind is not one. -/
theorem unambiguous_else {alternative alternative' : Option Block}
    (ha : ∀ b ∈ alternative, b.Unambiguous) (hs : Block.SpelledOption alternative')
    (hr : Delimits r) (hr' : Delimits r')
    (h : elseText alternative ++ r = elseText alternative' ++ r') :
    Block.unlinedOption alternative = Block.unlinedOption alternative' ∧ r = r' := by
  cases alternative with
  | none =>
    cases alternative' with
    | none => exact ⟨rfl, h⟩
    | some b' =>
      rw [elseText_none, List.nil_append, elseText_some, List.append_assoc] at h
      exact absurd ⟨_, h.symm⟩ hr.2
  | some b =>
    cases alternative' with
    | none =>
      rw [elseText_none, elseText_some, List.nil_append, List.append_assoc] at h
      exact absurd ⟨_, h⟩ hr'.2
    | some b' =>
      rw [elseText_some, elseText_some, List.append_assoc, List.append_assoc] at h
      obtain ⟨hkey, hrest⟩ := ha b rfl b' r r' hs trivial trivial (List.append_cancel_left h)
      exact ⟨by rw [Block.unlinedOption, Block.unlinedOption, hkey], hrest⟩

theorem terminates_block (b : Block) (cs : List Char) :
    Terminates (' ' :: (b.text.toList ++ cs)) := by
  obtain ⟨ss, line⟩ := b
  have htext : (Block.mk ss line).text.toList ++ cs =
      '{' :: ' ' :: ((Stmt.spacedText ss).toList ++ '}' :: cs) := by simp [Block.text]
  rw [htext]
  exact terminates_space (by decide) _

theorem headUnambiguous_conditional {condition : Expr} {consequence : Block}
    {alternative : Option Block} (hs : condition.Spelled ∧ consequence.Spelled ∧
      Block.SpelledOption alternative) (hc : condition.Unambiguous) (hb : consequence.Unambiguous)
    (ha : ∀ b ∈ alternative, b.Unambiguous) (line : Nat) :
    (Expr.conditional condition consequence alternative line).HeadUnambiguous := by
  rintro e' r r' ⟨he', hcall⟩ hr hr' h
  have hform := form_eq (e := .conditional condition consequence alternative line) hs he' hr hr' h
  cases e' with
  | conditional condition' consequence' alternative' line' =>
    rw [toList_conditional, toList_conditional, List.append_assoc, List.append_assoc,
      List.append_assoc, List.append_assoc, List.cons_append, List.cons_append, List.append_assoc,
      List.append_assoc] at h
    obtain ⟨hkey, hrest⟩ := hc condition' _ _ he'.1 (terminates_block _ _) (terminates_block _ _)
      (List.append_cancel_left h)
    obtain ⟨hkey', hrest⟩ := hb consequence' _ _ he'.2.1 trivial trivial (List.cons.inj hrest).2
    obtain ⟨hkey'', hrest⟩ := unambiguous_else ha he'.2.2 hr hr' hrest
    exact ⟨by rw [Expr.unlined, Expr.unlined, hkey, hkey', hkey''], hrest⟩
  | call callee args line => simp [Expr.isCall] at hcall
  | _ => simp [Expr.form] at hform

end

/-! ### Calls -/

/-- A call of a call, and so on, with these lists of arguments. -/
def Expr.calledWith (e : Expr) : List (List Expr) → Expr
  | [] => e
  | args :: calls => (Expr.call e args 0).calledWith calls

/-- What is written behind an expression that is called. -/
def callsText : List (List Expr) → List Char
  | [] => []
  | args :: calls => '(' :: ((commaJoined (args.map Expr.text)).toList ++ ')' :: callsText calls)

theorem Expr.texts_eq_map (es : List Expr) : Expr.texts es = es.map Expr.text := by
  induction es with
  | nil => rfl
  | cons e es ih => rw [texts, ih, List.map_cons]

theorem Expr.spelledAll_iff (es : List Expr) : Expr.SpelledAll es ↔ ∀ e ∈ es, e.Spelled := by
  induction es with
  | nil => simp [SpelledAll]
  | cons e es ih => rw [SpelledAll, ih, List.forall_mem_cons]

theorem delimits_callsText (calls : List (List Expr)) {r : List Char} (hr : Terminates r) :
    Delimits (callsText calls ++ r) := by
  cases calls with
  | nil => exact hr.1
  | cons args calls => exact delimits_cons (by decide) (by decide) _

theorem toList_call (callee : Expr) (args : List Expr) (line : Nat) (calls : List (List Expr))
    (r : List Char) : (Expr.call callee args line).text.toList ++ (callsText calls ++ r) =
      callee.text.toList ++ (callsText (args :: calls) ++ r) := by
  simp [Expr.text, callsText, Expr.texts_eq_map]

/-- An argument does not begin with the parenthesis that closes the list. -/
theorem Expr.text_starts_no_paren {e : Expr} (he : e.Spelled) :
    ∃ c cs, e.text.toList = c :: cs ∧ c ≠ ')' := by
  obtain ⟨c, cs, hc, hopens⟩ := Expr.text_starts he
  refine ⟨c, cs, hc, ?_⟩
  rintro rfl
  split at hopens
  · exact absurd hopens (by decide)
  · exact absurd hopens (by decide)

/-- The calls of an expression end where there are no further arguments. -/
theorem unambiguous_calls {calls calls' : List (List Expr)}
    (hread : ∀ args ∈ calls, ∀ e ∈ args, e.Spelled ∧ e.Unambiguous)
    (hs : ∀ args ∈ calls', ∀ e ∈ args, e.Spelled) {r r' : List Char} (hr : Terminates r)
    (hr' : Terminates r') (h : callsText calls ++ r = callsText calls' ++ r') :
    calls.map (List.map Expr.unlined) = calls'.map (List.map Expr.unlined) ∧ r = r' := by
  induction calls generalizing calls' with
  | nil =>
    cases calls' with
    | nil => exact ⟨rfl, h⟩
    | cons args calls' =>
      rw [callsText, List.nil_append] at h
      exact absurd (by rw [h]; rfl) hr.2
  | cons args calls ih =>
    cases calls' with
    | nil =>
      rw [callsText, callsText, List.nil_append] at h
      exact absurd (by rw [← h]; rfl) hr'.2
    | cons args' calls' =>
      obtain ⟨hargs, hcalls⟩ := List.forall_mem_cons.mp hread
      obtain ⟨hargs', hcalls'⟩ := List.forall_mem_cons.mp hs
      simp only [callsText, List.cons_append, List.append_assoc, List.cons.injEq, true_and] at h
      obtain ⟨hkeys, hrest⟩ := unambiguous_commaJoined terminates_otherItems
        (fun _ => Expr.text_starts_no_paren) (fun e he => (hargs e he).2)
        (fun e he => (hargs e he).1) hargs' h
      obtain ⟨hkeys', hrest⟩ := ih hcalls hcalls' hrest
      exact ⟨by rw [List.map_cons, List.map_cons, hkeys, hkeys'], hrest⟩

theorem unlined_calledWith {e e' : Expr} {calls calls' : List (List Expr)}
    (h : e.unlined = e'.unlined)
    (hcalls : calls.map (List.map Expr.unlined) = calls'.map (List.map Expr.unlined)) :
    (e.calledWith calls).unlined = (e'.calledWith calls').unlined := by
  induction calls generalizing e e' calls' with
  | nil =>
    obtain rfl : calls' = [] := List.map_eq_nil_iff.mp hcalls.symm
    exact h
  | cons args calls ih =>
    cases calls' with
    | nil => simp at hcalls
    | cons args' calls' =>
      obtain ⟨hargs, hcalls⟩ := List.cons.inj hcalls
      have hcall : (Expr.call e args 0).unlined = (Expr.call e' args' 0).unlined := by
        rw [Expr.unlined, Expr.unlined, h, Expr.unlinedAll_eq_map, Expr.unlinedAll_eq_map, hargs]
      exact @ih (.call e args 0) (.call e' args' 0) calls' hcall hcalls

theorem unlined_call_calledWith (callee : Expr) (args : List Expr) (line : Nat)
    (calls : List (List Expr)) : ((Expr.call callee args line).calledWith calls).unlined =
      (callee.calledWith (args :: calls)).unlined := by
  have hline : (Expr.call callee args line).unlined = (Expr.call callee args 0).unlined := rfl
  exact @unlined_calledWith _ (.call callee args 0) calls calls hline rfl

/-- The expression can be told, with its end, when it is called in some way. -/
def Expr.CalledUnambiguous (e : Expr) : Prop :=
  ∀ calls : List (List Expr), (∀ args ∈ calls, ∀ a ∈ args, a.Spelled ∧ a.Unambiguous) →
    ∀ (e' : Expr) (calls' : List (List Expr)) (r r' : List Char),
      e'.Spelled → (∀ args ∈ calls', ∀ a ∈ args, a.Spelled) → Terminates r → Terminates r' →
      e.text.toList ++ (callsText calls ++ r) = e'.text.toList ++ (callsText calls' ++ r') →
      (e.calledWith calls).unlined = (e'.calledWith calls').unlined ∧ r = r'

theorem Expr.CalledUnambiguous.unambiguous {e : Expr} (he : e.CalledUnambiguous) : e.Unambiguous :=
  fun e' r r' hs hr hr' h => he [] (by simp) e' [] r r' hs (by simp) hr hr' h

/-- An expression is no call, or the call of an expression for which it is known. -/
theorem Expr.call_induction {P : Expr → Prop} (head : ∀ e, e.isCall = false → P e)
    (call : ∀ callee args line, P callee → P (.call callee args line)) : ∀ e, P e
  | .call callee args line => call callee args line (call_induction head call callee)
  | .identifier _ | .integer _ _ | .boolean _ _ | .prefixed _ _ _ | .infixed _ _ _ _
  | .conditional _ _ _ _ | .function _ _ _ => head _ rfl

/-- An expression that is no call is found at the front of what is written like a call of it. -/
theorem Expr.HeadUnambiguous.called {e : Expr} (he : e.HeadUnambiguous) : e.CalledUnambiguous := by
  intro calls hcalls e'
  induction e' using Expr.call_induction with
  | head e' hcall =>
    intro calls' r r' hs hs' hr hr' h
    obtain ⟨hkey, hrest⟩ := he e' _ _ ⟨hs, hcall⟩ (delimits_callsText calls hr)
      (delimits_callsText calls' hr') h
    obtain ⟨hkeys, hrest⟩ := unambiguous_calls hcalls hs' hr hr' hrest
    exact ⟨unlined_calledWith hkey hkeys, hrest⟩
  | call callee args line ih =>
    intro calls' r r' hs hs' hr hr' h
    rw [toList_call] at h
    have hargs := List.forall_mem_cons.mpr ⟨(Expr.spelledAll_iff args).mp hs.2, hs'⟩
    obtain ⟨hkey, hrest⟩ := ih (args :: calls') r r' hs.1 hargs hr hr' h
    exact ⟨hkey.trans (unlined_call_calledWith callee args line calls').symm, hrest⟩

theorem Expr.CalledUnambiguous.call {callee : Expr} (hc : callee.CalledUnambiguous)
    {args : List Expr} (ha : ∀ a ∈ args, a.Spelled ∧ a.Unambiguous) (line : Nat) :
    (Expr.call callee args line).CalledUnambiguous := by
  intro calls hcalls e' calls' r r' hs hs' hr hr' h
  rw [toList_call] at h
  obtain ⟨hkey, hrest⟩ := hc (args :: calls) (List.forall_mem_cons.mpr ⟨ha, hcalls⟩) e' calls' r r'
    hs hs' hr hr' h
  exact ⟨(unlined_call_calledWith callee args line calls).trans hkey, hrest⟩

/-! ### Statements and blocks -/

section
variable {s s' : Stmt} {r r' : List Char}

theorem Stmt.tokens_append_eq (hs : s.Spelled) (hs' : s'.Spelled) (hr : Delimits r)
    (hr' : Delimits r') (h : s.text.toList ++ r = s'.text.toList ++ r') :
    s.tokens ++ tokensOf r = s'.tokens ++ tokensOf r' := by
  rw [← Stmt.tokensOf_text hs, ← Stmt.tokensOf_text hs', ← hr.tokensOf_append,
    ← hr'.tokensOf_append, h]

/-- A keyword that starts no expression tells a statement from an expression. -/
theorem keyword_ne_tokens {t : Token} (ht : t.startForm? = none) (e : Expr) (ts us : List Token) :
    t :: ts ≠ e.tokens ++ us := by
  intro h
  obtain ⟨t', ts', hts, hform⟩ := e.tokens_form
  rw [hts] at h
  obtain rfl : t = t' := (List.cons.inj h).1
  simp [ht] at hform

theorem terminates_semicolon (r : List Char) : Terminates (';' :: r) :=
  terminates_cons (by decide) (by decide) (by decide) r

theorem unambiguous_bind {target : Identifier} {value : Expr}
    (hs : IsName target.name ∧ value.Spelled) (hv : value.Unambiguous) (line : Nat) :
    (Stmt.bind target value line).Unambiguous := by
  intro s' r r' hs' hr hr' h
  have ht := Stmt.tokens_append_eq (s := .bind target value line) hs hs' hr.1 hr'.1 h
  cases s' with
  | bind target' value' line' =>
    have htext : target.name.toList ++ ' ' :: '=' :: ' ' :: (value.text.toList ++ ';' :: r) =
        target'.name.toList ++ ' ' :: '=' :: ' ' :: (value'.text.toList ++ ';' :: r') := by
      simpa [Stmt.text] using h
    obtain ⟨hkey, hrest⟩ := unambiguous_name hs.1 target' _ _ hs'.1
      (terminates_space (by decide) _).1 (terminates_space (by decide) _).1 htext
    have hrest : value.text.toList ++ ';' :: r = value'.text.toList ++ ';' :: r' := by
      simpa using hrest
    obtain ⟨hkey', hrest⟩ := hv value' _ _ hs'.2 (terminates_semicolon r) (terminates_semicolon r')
      hrest
    exact ⟨by rw [Stmt.unlined, Stmt.unlined, hkey, hkey'], (List.cons.inj hrest).2⟩
  | ret value' line' => simp [Stmt.tokens] at ht
  | expr value' line' => exact absurd ht (keyword_ne_tokens rfl value' _ _)
  | block body => exact hs'.elim

theorem unambiguous_ret {value : Expr} (hs : value.Spelled) (hv : value.Unambiguous) (line : Nat) :
    (Stmt.ret value line).Unambiguous := by
  intro s' r r' hs' hr hr' h
  have ht := Stmt.tokens_append_eq (s := .ret value line) hs hs' hr.1 hr'.1 h
  cases s' with
  | bind target' value' line' => simp [Stmt.tokens] at ht
  | ret value' line' =>
    have htext : value.text.toList ++ ';' :: r = value'.text.toList ++ ';' :: r' := by
      simpa [Stmt.text] using h
    obtain ⟨hkey, hrest⟩ := hv value' _ _ hs' (terminates_semicolon r) (terminates_semicolon r')
      htext
    exact ⟨by rw [Stmt.unlined, Stmt.unlined, hkey], (List.cons.inj hrest).2⟩
  | expr value' line' => exact absurd ht (keyword_ne_tokens rfl value' _ _)
  | block body => exact hs'.elim

theorem unambiguous_exprStmt {value : Expr} (hs : value.Spelled) (hv : value.Unambiguous)
    (line : Nat) : (Stmt.expr value line).Unambiguous := by
  intro s' r r' hs' hr hr' h
  have ht := Stmt.tokens_append_eq (s := .expr value line) hs hs' hr.1 hr'.1 h
  cases s' with
  | bind target' value' line' => exact absurd ht.symm (keyword_ne_tokens rfl value _ _)
  | ret value' line' => exact absurd ht.symm (keyword_ne_tokens rfl value _ _)
  | expr value' line' =>
    obtain ⟨hkey, hrest⟩ := hv value' r r' hs' hr hr' h
    exact ⟨by rw [Stmt.unlined, Stmt.unlined, hkey], hrest⟩
  | block body => exact hs'.elim

theorem keyword_ne_stmt_tokens {t : Token} (ht : t.startForm? = none) (hlet : t ≠ .letWord)
    (hreturn : t ≠ .returnWord) (hs : s.Spelled) (ts us : List Token) :
    t :: ts ≠ s.tokens ++ us := by
  cases s with
  | bind target value line => exact fun h => hlet (List.cons.inj h).1
  | ret value line => exact fun h => hreturn (List.cons.inj h).1
  | expr value line => exact keyword_ne_tokens ht value ts us
  | block body => exact hs.elim

/-- The written forms of the statements of a block, with its brace, one by one. -/
theorem toList_spacedText (s : Stmt) (ss : List Stmt) (r : List Char) :
    (Stmt.spacedText (s :: ss)).toList ++ '}' :: r =
      s.text.toList ++ ' ' :: ((Stmt.spacedText ss).toList ++ '}' :: r) := by
  simp [Stmt.spacedText]

theorem tokensOf_text_space (hs : s.Spelled) (cs : List Char) :
    tokensOf (s.text.toList ++ ' ' :: cs) = s.tokens ++ tokensOf cs := by
  rw [tokensOf_append rfl, Stmt.tokensOf_text hs, tokensOf_blank (by decide) rfl]

theorem tokensOf_rightBrace (r : List Char) : tokensOf ('\x7d' :: r) = .rightBrace :: tokensOf r :=
  tokensOf_sign rfl r

/-- What comes behind a statement of a block is another one or the brace, and no `else`. -/
theorem terminates_statements {ss : List Stmt} (hss : Stmt.SpelledAll ss) (r : List Char) :
    Terminates (' ' :: ((Stmt.spacedText ss).toList ++ '}' :: r)) := by
  refine ⟨⟨by simp; decide, ?_⟩, by simp⟩
  rintro ⟨cs, h⟩
  have h : "else".toList ++ ' ' :: cs = (Stmt.spacedText ss).toList ++ '}' :: r := by
    simpa using h
  have helse : tokensOf ("else".toList ++ ' ' :: cs) = .elseWord :: tokensOf cs := by
    have hword : tokensOf "else".toList = [.elseWord] := by decide +kernel
    rw [tokensOf_append rfl, tokensOf_blank (by decide) rfl, hword]
    rfl
  rw [h] at helse
  cases ss with
  | nil =>
    exact absurd (List.cons.inj ((tokensOf_rightBrace r).symm.trans helse)).1 (by simp)
  | cons s ss =>
    rw [toList_spacedText, tokensOf_text_space hss.1] at helse
    exact keyword_ne_stmt_tokens rfl (by simp) (by simp) hss.1 _ _ helse.symm

theorem unambiguous_statements {ss ss' : List Stmt} (hread : ∀ s ∈ ss, s.Unambiguous)
    (hss : Stmt.SpelledAll ss) (hss' : Stmt.SpelledAll ss') {r r' : List Char}
    (h : (Stmt.spacedText ss).toList ++ '}' :: r =
      (Stmt.spacedText ss').toList ++ '}' :: r') :
    Stmt.unlinedAll ss = Stmt.unlinedAll ss' ∧ r = r' := by
  have hbrace {s : Stmt} (hs : s.Spelled) (r cs : List Char) :
      '}' :: r ≠ s.text.toList ++ ' ' :: cs := by
    intro h
    have ht := congrArg tokensOf h
    rw [tokensOf_rightBrace, tokensOf_text_space hs] at ht
    exact keyword_ne_stmt_tokens rfl (by simp) (by simp) hs _ _ ht
  induction ss generalizing ss' with
  | nil =>
    cases ss' with
    | nil => exact ⟨rfl, (List.cons.inj h).2⟩
    | cons s' ss' => exact absurd (h.trans (toList_spacedText s' ss' r')) (hbrace hss'.1 _ _)
  | cons s ss ih =>
    rw [toList_spacedText] at h
    cases ss' with
    | nil => exact absurd h.symm (hbrace hss.1 _ _)
    | cons s' ss' =>
      rw [toList_spacedText] at h
      obtain ⟨hs, hreads⟩ := List.forall_mem_cons.mp hread
      obtain ⟨hkey, hrest⟩ := hs s' _ _ hss'.1 (terminates_statements hss.2 r)
        (terminates_statements hss'.2 r') h
      obtain ⟨hkeys, hrest⟩ := ih hreads hss.2 hss'.2 (List.cons.inj hrest).2
      exact ⟨by rw [Stmt.unlinedAll, Stmt.unlinedAll, hkey, hkeys], hrest⟩

theorem unambiguous_block {ss : List Stmt} (hread : ∀ s ∈ ss, s.Unambiguous)
    (hss : Stmt.SpelledAll ss) (line : Nat) : (Block.mk ss line).Unambiguous := by
  rintro ⟨ss', line'⟩ r r' hss' - - h
  have htext : (Stmt.spacedText ss).toList ++ '}' :: r =
      (Stmt.spacedText ss').toList ++ '}' :: r' := by
    simpa [Block.text] using h
  obtain ⟨hkeys, hrest⟩ := unambiguous_statements hread hss hss' htext
  exact ⟨by rw [Block.unlined, Block.unlined, hkeys], hrest⟩

end

/-! ### All trees -/

mutual

/-- **Every expression can be told from its written form**, with its end. -/
theorem Expr.calledUnambiguous : ∀ {e : Expr}, e.Spelled → e.CalledUnambiguous
  | .identifier _, h => (headUnambiguous_identifier h).called
  | .integer _ line, h => (headUnambiguous_integer h line).called
  | .boolean b line, _ => (headUnambiguous_boolean b line).called
  | .prefixed op operand line, h =>
    have hs : operand.Spelled := h
    (headUnambiguous_prefixed hs (Expr.calledUnambiguous hs).unambiguous op line).called
  | .infixed _ op _ line, h =>
    have hl := (Expr.calledUnambiguous h.1).unambiguous
    have hr := (Expr.calledUnambiguous h.2).unambiguous
    (headUnambiguous_infixed h hl hr op line).called
  | .conditional _ _ none line, h =>
    have hc := (Expr.calledUnambiguous h.1).unambiguous
    have hb := Block.unambiguous h.2.1
    (headUnambiguous_conditional h hc hb (by simp) line).called
  | .conditional _ _ (some alternative) line, h =>
    have hc := (Expr.calledUnambiguous h.1).unambiguous
    have hb := Block.unambiguous h.2.1
    have ha : ∀ b ∈ some alternative, b.Unambiguous := by
      rintro _ ⟨⟩
      exact Block.unambiguous (b := alternative) h.2.2
    (headUnambiguous_conditional h hc hb ha line).called
  | .function _ _ line, h => (headUnambiguous_function h (Block.unambiguous h.2) line).called
  | .call _ _ line, h => (Expr.calledUnambiguous h.1).call (Expr.unambiguous_all h.2) line

theorem Expr.unambiguous_all : ∀ {es : List Expr}, Expr.SpelledAll es →
    ∀ e ∈ es, e.Spelled ∧ e.Unambiguous
  | [], _ => by simp
  | _ :: _, h => List.forall_mem_cons.mpr
    ⟨⟨h.1, (Expr.calledUnambiguous h.1).unambiguous⟩, Expr.unambiguous_all h.2⟩

/-- **Every statement can be told from its written form**, with its end. -/
theorem Stmt.unambiguous : ∀ {s : Stmt}, s.Spelled → s.Unambiguous
  | .bind _ _ line, h => unambiguous_bind h (Expr.calledUnambiguous h.2).unambiguous line
  | .ret value line, h =>
    have hs : value.Spelled := h
    unambiguous_ret hs (Expr.calledUnambiguous hs).unambiguous line
  | .expr value line, h =>
    have hs : value.Spelled := h
    unambiguous_exprStmt hs (Expr.calledUnambiguous hs).unambiguous line

theorem Stmt.unambiguous_all : ∀ {ss : List Stmt}, Stmt.SpelledAll ss → ∀ s ∈ ss, s.Unambiguous
  | [], _ => by simp
  | _ :: _, h => List.forall_mem_cons.mpr ⟨Stmt.unambiguous h.1, Stmt.unambiguous_all h.2⟩

/-- **Every block can be told from its written form**, with its end. -/
theorem Block.unambiguous : ∀ {b : Block}, b.Spelled → b.Unambiguous
  | .mk _ line, h => unambiguous_block (Stmt.unambiguous_all h) h line

end

theorem Stmt.spelledAll_iff (ss : List Stmt) : Stmt.SpelledAll ss ↔ ∀ s ∈ ss, s.Spelled := by
  induction ss with
  | nil => simp [SpelledAll]
  | cons s ss ih => rw [SpelledAll, ih, List.forall_mem_cons]

/-! ### Parts of a program -/

inductive Part where
  | stmt (s : Stmt)
  | expr (e : Expr)
  | block (b : Block)

namespace Part

def children : Part → List Part
  | stmt (.bind _ value _) => [expr value]
  | stmt (.ret value _) => [expr value]
  | stmt (.expr value _) => [expr value]
  | stmt (.block body) => [block body]
  | expr (.identifier _) => []
  | expr (.integer _ _) => []
  | expr (.boolean _ _) => []
  | expr (.prefixed _ operand _) => [expr operand]
  | expr (.infixed left _ right _) => [expr left, expr right]
  | expr (.conditional condition consequence none _) => [expr condition, block consequence]
  | expr (.conditional condition consequence (some alternative) _) =>
    [expr condition, block consequence, block alternative]
  | expr (.function _ body _) => [block body]
  | expr (.call callee args _) => expr callee :: args.map expr
  | block (.mk ss _) => ss.map stmt

/-- A part of a program, at any depth. -/
inductive OccursIn (p : Program) : Part → Prop where
  | top {s : Stmt} : s ∈ p → OccursIn p (stmt s)
  | inside {x y : Part} : OccursIn p x → y ∈ x.children → OccursIn p y

def Spelled : Part → Prop
  | stmt s => s.Spelled
  | expr e => e.Spelled
  | block b => b.Spelled

theorem Spelled.children : ∀ {x : Part}, x.Spelled → ∀ y ∈ x.children, y.Spelled
  | stmt (.bind _ _ _), h => List.forall_mem_singleton.mpr h.2
  | stmt (.ret _ _), h => List.forall_mem_singleton.mpr h
  | stmt (.expr _ _), h => List.forall_mem_singleton.mpr h
  | expr (.identifier _), _ => by simp [Part.children]
  | expr (.integer _ _), _ => by simp [Part.children]
  | expr (.boolean _ _), _ => by simp [Part.children]
  | expr (.prefixed _ _ _), h => List.forall_mem_singleton.mpr h
  | expr (.infixed _ _ _ _), h =>
    List.forall_mem_cons.mpr ⟨h.1, List.forall_mem_singleton.mpr h.2⟩
  | expr (.conditional _ _ none _), h =>
    List.forall_mem_cons.mpr ⟨h.1, List.forall_mem_singleton.mpr h.2.1⟩
  | expr (.conditional _ _ (some _) _), h =>
    List.forall_mem_cons.mpr ⟨h.1, List.forall_mem_cons.mpr
      ⟨h.2.1, List.forall_mem_singleton.mpr h.2.2⟩⟩
  | expr (.function _ _ _), h => List.forall_mem_singleton.mpr h.2
  | expr (.call _ args _), h =>
    List.forall_mem_cons.mpr ⟨h.1, List.forall_mem_map.mpr ((Expr.spelledAll_iff args).mp h.2)⟩
  | block (.mk ss _), h => List.forall_mem_map.mpr ((Stmt.spelledAll_iff ss).mp h)

end Part

theorem Part.OccursIn.spelled {p : Program} (hp : Stmt.SpelledAll p) {x : Part}
    (hx : x.OccursIn p) : x.Spelled := by
  induction hx with
  | top hs => exact (Stmt.spelledAll_iff p).mp hp _ hs
  | inside _ hy ih => exact ih.children _ hy

/-- **The written form of a part tells it.** -/
theorem written_form_unambiguous {source source' : String} (h : (parse source).errors = [])
    (h' : (parse source').errors = []) :
    let p := (parse source).program
    let p' := (parse source').program
    (∀ s s', Part.OccursIn p (.stmt s) → Part.OccursIn p' (.stmt s') →
      (s.text = s'.text ↔ s.unlined = s'.unlined)) ∧
    (∀ e e', Part.OccursIn p (.expr e) → Part.OccursIn p' (.expr e') →
      (e.text = e'.text ↔ e.unlined = e'.unlined)) ∧
    ∀ b b', Part.OccursIn p (.block b) → Part.OccursIn p' (.block b') →
      (b.text = b'.text ↔ b.unlined = b'.unlined) := by
  have hs := (derives_of_parse h).2
  have hs' := (derives_of_parse h').2
  refine ⟨fun s s' ho ho' => ⟨fun ht => ?_, fun hu => ?_⟩,
    fun e e' ho ho' => ⟨fun ht => ?_, fun hu => ?_⟩,
    fun b b' ho ho' => ⟨fun ht => ?_, Block.text_eq_of_unlined⟩⟩
  · have hread := Stmt.unambiguous (ho.spelled hs)
    exact (hread s' [] [] (ho'.spelled hs') terminates_nil terminates_nil (by rw [ht])).1
  · rw [← s.text_unlined, hu, s'.text_unlined]
  · have hread := (Expr.calledUnambiguous (ho.spelled hs)).unambiguous
    exact (hread e' [] [] (ho'.spelled hs') terminates_nil terminates_nil (by rw [ht])).1
  · rw [← e.text_unlined, hu, e'.text_unlined]
  · have hread := Block.unambiguous (ho.spelled hs)
    exact (hread b' [] [] (ho'.spelled hs') trivial trivial (by rw [ht])).1

/-- One statement with the parentheses that it needs, and with all that there can be. -/
theorem written_form_unambiguous_parentheses :
    ∃ s ∈ (parse "-f(a) * (b)").program, ∃ s' ∈ (parse "((-(f\n(a))) * b);").program,
      s.text = "((-f(a)) * b)" ∧ s'.text = "((-f(a)) * b)" ∧ s.unlined = s'.unlined := by
  obtain ⟨s, hs, htext⟩ : ∃ s ∈ (parse "-f(a) * (b)").program, s.text = "((-f(a)) * b)" := by
    decide +kernel
  obtain ⟨s', hs', htext'⟩ : ∃ s' ∈ (parse "((-(f\n(a))) * b);").program,
      s'.text = "((-f(a)) * b)" := by decide +kernel
  obtain ⟨hstmt, -⟩ := @written_form_unambiguous "-f(a) * (b)" "((-(f\n(a))) * b);"
    (by decide +kernel) (by decide +kernel)
  have hsame := (hstmt s s' (.top hs) (.top hs')).mp (htext.trans htext'.symm)
  exact ⟨s, hs, s', hs', htext, htext', hsame⟩

end ExprScript
