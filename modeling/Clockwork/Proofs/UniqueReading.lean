import Clockwork.Expr.Basic
import Clockwork.Proofs.NormalForms

namespace Clockwork
set_option autoImplicit true

variable {p : Char → Bool} {w rest cs : List Char} {e a b c t : Expr}

/-- Letters, the underscore and all that lies beyond ASCII, so that the letters of every script
count. -/
def startsName (c : Char) : Bool :=
  c.isAlpha || c == '_' || 128 ≤ c.toNat

def continuesName (c : Char) : Bool :=
  startsName c || c.isDigit

/-- The words that have a meaning of their own in the text of an expression. -/
def reservedWords : List String :=
  ["not", "and", "or", "if", "else", "true", "false"]

/-- An identifier that is no reserved word. -/
def IsPlainName (x : String) : Prop :=
  x.toList.head?.any startsName ∧ x.toList.all continuesName ∧ x ∉ reservedWords

instance (x : String) : Decidable (IsPlainName x) :=
  inferInstanceAs (Decidable (_ ∧ _ ∧ _))

theorem IsPlainName.ne_nil (h : IsPlainName x) : x.toList ≠ [] := by
  intro hx
  have hstart := h.1
  rw [hx] at hstart
  cases hstart

/-- Takes a text off the front of another one. -/
def takeOff? (w : String) (cs : List Char) : Option (List Char) :=
  if w.toList.isPrefixOf cs then some (cs.drop w.toList.length) else none

theorem takeOff?_append (w : String) (cs : List Char) : takeOff? w (w.toList ++ cs) = some cs := by
  simp [takeOff?]

/-- The operator that is written as a word. -/
def BinaryOp.ofGlyph? (w : List Char) : Option BinaryOp :=
  [.add, .sub, .mul, .div, .mod, .bitAnd, .bitOr, .bitXor, .shiftLeft, .shiftRight, .and, .or, .eq,
    .ne, .lt, .le, .gt, .ge].find? fun op => op.glyph.toList = w

theorem BinaryOp.ofGlyph?_glyph (op : BinaryOp) : ofGlyph? op.glyph.toList = some op := by
  cases op <;> decide

theorem BinaryOp.glyph_ne_if (op : BinaryOp) : op.glyph.toList ≠ "if".toList := by
  cases op <;> decide

theorem BinaryOp.glyph_no_blank (op : BinaryOp) : op.glyph.toList.all (· ≠ ' ') := by
  cases op <;> decide

namespace Expr

/-- The text of an expression where it is an operand. -/
def operandText (e : Expr) : String :=
  parenthesize e.isCompound e.text

/-- The literal or the variable that is written as a word. -/
def ofWord (w : List Char) : Expr :=
  if w = "true".toList then .bool true
  else if w = "false".toList then .bool false
  else if w.head?.any Char.isDigit then .int (Int64.ofNat (Nat.ofDigitChars 10 w 0))
  else .var (String.ofList w)

/-- Reads the operand of a unary operator. -/
def readUnary (op : UnaryOp) (read : List Char → Option (Expr × List Char)) (cs : List Char) :
    Option (Expr × List Char) :=
  (read cs).map fun (a, cs) => (.unary op a, cs)

/-- Reads an operation on two operands or a conditional, given how to read an operand. -/
def readCompound (read : List Char → Option (Expr × List Char)) (cs : List Char) :
    Option (Expr × List Char) := do
  let (a, cs) ← read cs
  let cs ← takeOff? " " cs
  let word := cs.takeWhile (· ≠ ' ')
  let cs ← takeOff? " " (cs.dropWhile (· ≠ ' '))
  let (b, cs) ← read cs
  if word = "if".toList then
    let cs ← takeOff? " else " cs
    let (e, cs) ← read cs
    return (.ite b a e, cs)
  else
    let op ← BinaryOp.ofGlyph? word
    return (.binary op a b, cs)

/-- Reads an operand that is nested less than `fuel` deep from the front of a text, and gives the
rest of the text. A sign before a digit belongs to a literal. -/
def readOperand : (fuel : Nat) → List Char → Option (Expr × List Char)
  | 0, _ => none
  | fuel + 1, cs =>
    if cs.head? = some '(' then do
      let (e, cs) ← readCompound (readOperand fuel) cs.tail
      return (e, ← takeOff? ")" cs)
    else if cs.head? = some '~' then readUnary .invert (readOperand fuel) cs.tail
    else if cs.head? = some '-' then
      if cs.tail.head?.any Char.isDigit then
        let digits := cs.tail.takeWhile Char.isDigit
        some (.int (Int64.ofInt (-Nat.ofDigitChars 10 digits 0)), cs.tail.dropWhile Char.isDigit)
      else readUnary .negate (readOperand fuel) cs.tail
    else
      let word := cs.takeWhile continuesName
      let cs := cs.dropWhile continuesName
      if word = "not".toList then (takeOff? " " cs).bind (readUnary .not (readOperand fuel))
      else some (ofWord word, cs)

end Expr

theorem takeWhile_word (hw : w.all p) (hrest : ∀ c ∈ rest.head?, p c = false) :
    (w ++ rest).takeWhile p = w := by
  rw [List.takeWhile_append_of_pos (List.all_eq_true.1 hw)]
  cases rest with
  | nil => simp
  | cons c rest => simp [hrest c rfl]

theorem dropWhile_word (hw : w.all p) (hrest : ∀ c ∈ rest.head?, p c = false) :
    (w ++ rest).dropWhile p = rest := by
  rw [List.dropWhile_append_of_pos (List.all_eq_true.1 hw)]
  cases rest with
  | nil => rfl
  | cons c rest => simp [hrest c rfl]

theorem any_head?_append (hw : w ≠ []) (rest : List Char) :
    (w ++ rest).head?.any p = w.head?.any p := by
  cases w with
  | nil => exact absurd rfl hw
  | cons d w => rfl

/-- A text that does not go on with a word. -/
def EndsWord (cs : List Char) : Prop :=
  ∀ c ∈ cs.head?, continuesName c = false

theorem EndsWord.cons (h : continuesName d = false) (cs : List Char) : EndsWord (d :: cs) := by
  intro d' hd
  cases hd
  exact h

theorem isDigit_of_startsName (h : startsName d = true) : d.isDigit = false := by
  have hafter : 57 < d.toNat := by
    have hranges : (decide ('A'.val ≤ d.val ∧ d.val ≤ 'Z'.val) ||
        ('a'.val ≤ d.val && d.val ≤ 'z'.val) || d == '_' || 128 ≤ d.toNat) = true := h
    simp only [Bool.or_eq_true, Bool.and_eq_true, beq_iff_eq, decide_eq_true_eq,
      UInt32.le_iff_toNat_le, Char.toNat_val, Char.reduceToNat] at hranges
    rcases hranges with ((hupper | hlower) | rfl) | hbeyond
    · omega
    · omega
    · decide
    · omega
  rw [Bool.eq_false_iff]
  intro hd
  exact Nat.not_le.2 hafter (Char.isDigit_iff_toNat.1 hd).2

theorem head?_of_startsName (h : w.head?.any startsName) : ¬ w.head?.any Char.isDigit := by
  cases w with
  | nil => exact Bool.false_ne_true
  | cons d w =>
    have hd : d.isDigit = false := isDigit_of_startsName h
    exact fun hdigit => Bool.false_ne_true (hd.symm.trans hdigit)

theorem all_isDigit_toDigits (n : Nat) : (Nat.toDigits 10 n).all Char.isDigit := by
  rw [List.all_eq_true]
  intro c hc
  exact Nat.isDigit_of_mem_toDigits (by decide) (by decide) hc

theorem head?_toDigits (n : Nat) : (Nat.toDigits 10 n).head?.any Char.isDigit := by
  cases hw : Nat.toDigits 10 n with
  | nil => exact absurd hw Nat.toDigits_ne_nil
  | cons d w =>
    have hall := all_isDigit_toDigits n
    rw [hw, List.all_cons, Bool.and_eq_true] at hall
    exact hall.1

theorem toDigits_ne (n : Nat) (hw : ¬ w.head?.any Char.isDigit) : Nat.toDigits 10 n ≠ w := by
  intro h
  exact hw (h ▸ head?_toDigits n)

theorem all_continuesName_toDigits (n : Nat) : (Nat.toDigits 10 n).all continuesName := by
  rw [List.all_eq_true]
  intro c hc
  rw [continuesName, List.all_eq_true.1 (all_isDigit_toDigits n) c hc, Bool.or_true]

namespace Expr

/-- A word is an operand, or the operator of one. -/
theorem readOperand_word (fuel : Nat) (hne : w ≠ []) (hw : w.all continuesName)
    (hrest : EndsWord rest) :
    readOperand (fuel + 1) (w ++ rest) =
      if w = "not".toList then (takeOff? " " rest).bind (readUnary .not (readOperand fuel))
      else some (ofWord w, rest) := by
  have hhead (d : Char) (hd : continuesName d = false) : (w ++ rest).head? ≠ some d := by
    cases w with
    | nil => exact absurd rfl hne
    | cons c w =>
      intro h
      cases h
      rw [List.all_cons, hd] at hw
      cases hw
  rw [readOperand, if_neg (hhead '(' (by decide)), if_neg (hhead '~' (by decide)),
    if_neg (hhead '-' (by decide))]
  simp only [takeWhile_word hw hrest, dropWhile_word hw hrest]

theorem ofWord_name (hx : IsPlainName x) : ofWord x.toList = .var x := by
  obtain ⟨hstart, _, hreserved⟩ := hx
  have hne (s : String) (hs : s ∈ reservedWords) : x.toList ≠ s.toList := by
    intro h
    rw [String.toList_inj] at h
    exact hreserved (h ▸ hs)
  rw [ofWord, if_neg (hne _ (by decide)), if_neg (hne _ (by decide)),
    if_neg (head?_of_startsName hstart), String.ofList_toList]

theorem ofWord_bool (b : Bool) : ofWord (bool b).text.toList = bool b := by
  cases b <;> decide

theorem ofWord_digits (n : Nat) : ofWord (Nat.toDigits 10 n) = int (Int64.ofNat n) := by
  rw [ofWord, if_neg (toDigits_ne n (by decide)), if_neg (toDigits_ne n (by decide)),
    if_pos (head?_toDigits n), Nat.ofDigitChars_ten_toDigits]

variable {read : List Char → Option (Expr × List Char)}

/-- The reader takes the text of an operand off the front of any text that goes on after it. -/
def Reads (read : List Char → Option (Expr × List Char)) (e : Expr) : Prop :=
  ∀ rest, EndsWord rest → read (e.operandText.toList ++ rest) = some (e, rest)

theorem Reads.unary (h : Reads read a) (op : UnaryOp) (hrest : EndsWord rest) :
    readUnary op read (a.operandText.toList ++ rest) = some (unary op a, rest) := by
  rw [readUnary, h rest hrest]
  rfl

theorem toList_text_unary (op : UnaryOp) (a : Expr) (rest : List Char) :
    (unary op a).operandText.toList ++ rest =
      op.glyph.toList ++ (a.operandText.toList ++ rest) := by
  rw [← List.append_assoc, ← String.toList_append]
  rfl

theorem toList_text_compound (he : e.isCompound = true) (rest : List Char) :
    e.operandText.toList ++ rest = '(' :: (e.text.toList ++ (")".toList ++ rest)) := by
  simp [operandText, he, parenthesize]

theorem toList_text_binary (op : BinaryOp) (a b : Expr) (rest : List Char) :
    (binary op a b).text.toList ++ rest = a.operandText.toList ++ (" ".toList ++
      (op.glyph.toList ++ (" ".toList ++ (b.operandText.toList ++ rest)))) := by
  simp only [text, operandText, String.toList_append, List.append_assoc]

theorem toList_text_ite (c a b : Expr) (rest : List Char) :
    (ite c a b).text.toList ++ rest = a.operandText.toList ++ (" ".toList ++
      ("if".toList ++ (" ".toList ++ (c.operandText.toList ++ (" else ".toList ++
        (b.operandText.toList ++ rest)))))) := by
  have hif : " if " = " " ++ "if" ++ " " := by decide
  simp only [text, operandText, hif, String.toList_append, List.append_assoc]

theorem endsWord_blank (cs : List Char) : EndsWord (" ".toList ++ cs) :=
  .cons (by decide) cs

theorem blank_stops (cs : List Char) :
    ∀ d ∈ (" ".toList ++ cs).head?, decide (d ≠ ' ') = false := by
  intro d hd
  cases hd
  decide

theorem Reads.binary (ha : Reads read a) (hb : Reads read b) (op : BinaryOp)
    (hrest : EndsWord rest) :
    readCompound read ((binary op a b).text.toList ++ rest) = some (.binary op a b, rest) := by
  rw [toList_text_binary, readCompound, ha _ (endsWord_blank _)]
  simp only [Option.bind_eq_bind, Option.bind_some, takeOff?_append,
    takeWhile_word op.glyph_no_blank (blank_stops _),
    dropWhile_word op.glyph_no_blank (blank_stops _), hb _ hrest, if_neg op.glyph_ne_if,
    op.ofGlyph?_glyph]
  rfl

theorem Reads.ite (hc : Reads read c) (ha : Reads read a) (hb : Reads read b)
    (hrest : EndsWord rest) :
    readCompound read ((ite c a b).text.toList ++ rest) = some (.ite c a b, rest) := by
  have hif : "if".toList.all (· ≠ ' ') := by decide
  have helse (cs : List Char) : EndsWord (" else ".toList ++ cs) := .cons (by decide) _
  rw [toList_text_ite, readCompound, ha _ (endsWord_blank _)]
  simp only [Option.bind_eq_bind, Option.bind_some, takeOff?_append,
    takeWhile_word hif (blank_stops _), dropWhile_word hif (blank_stops _), hc _ (helse _),
    hb _ hrest]
  rfl

/-- A compound operand is read between its parentheses. -/
theorem reads_compound (he : e.isCompound = true)
    (h : ∀ rest, EndsWord rest →
      readCompound (readOperand fuel) (e.text.toList ++ rest) = some (e, rest)) :
    Reads (readOperand (fuel + 1)) e := by
  intro rest _
  have hclosed : EndsWord (")".toList ++ rest) := .cons (by decide) _
  rw [toList_text_compound he, readOperand, if_pos List.head?_cons, List.tail_cons, h _ hclosed]
  simp only [Option.bind_eq_bind, Option.bind_some, takeOff?_append]
  rfl

theorem reads_word (hne : e.operandText.toList ≠ [])
    (hchars : e.operandText.toList.all continuesName)
    (hnot : e.operandText.toList ≠ "not".toList) (hword : ofWord e.operandText.toList = e) :
    Reads (readOperand (fuel + 1)) e := by
  intro rest hrest
  rw [readOperand_word fuel hne hchars hrest, if_neg hnot, hword]

theorem reads_var (hx : IsPlainName x) : Reads (readOperand (fuel + 1)) (var x) := by
  have hne : x.toList ≠ [] := hx.ne_nil
  have hword := ofWord_name hx
  obtain ⟨_, hchars, hreserved⟩ := hx
  apply reads_word
  · exact hne
  · exact hchars
  · intro hnot
    have hx : x = "not" := String.toList_inj.1 hnot
    exact hreserved (hx ▸ List.mem_cons_self)
  · exact hword

theorem toList_text_int (n : Int64) : (int n).operandText.toList =
    if 0 ≤ n.toInt then Nat.toDigits 10 n.toInt.toNat
    else '-' :: Nat.toDigits 10 (-n.toInt).toNat := by
  have htext : (int n).operandText = n.toInt.repr := rfl
  rw [htext, Int.repr_eq_if]
  split
  · exact Nat.toList_repr
  · rw [String.toList_append, Nat.toList_repr]
    rfl

theorem readOperand_sign (fuel : Nat) (cs : List Char) :
    readOperand (fuel + 1) ('-' :: cs) =
      if cs.head?.any Char.isDigit then
        some (int (Int64.ofInt (-Nat.ofDigitChars 10 (cs.takeWhile Char.isDigit) 0)),
          cs.dropWhile Char.isDigit)
      else readUnary .negate (readOperand fuel) cs := by
  have hne (d : Char) (hd : '-' ≠ d) : ('-' :: cs).head? ≠ some d := by
    intro h
    cases h
    exact hd rfl
  rw [readOperand, if_neg (hne '(' (by decide)), if_neg (hne '~' (by decide)),
    if_pos List.head?_cons, List.tail_cons]

theorem reads_int (n : Int64) : Reads (readOperand (fuel + 1)) (int n) := by
  have htext := toList_text_int n
  by_cases hn : 0 ≤ n.toInt
  · rw [if_pos hn] at htext
    have hvalue : Int64.ofNat n.toInt.toNat = n := by
      rw [← Int64.ofInt_eq_ofNat, Int.toNat_of_nonneg hn, Int64.ofInt_toInt]
    apply reads_word
    · rw [htext]
      exact Nat.toDigits_ne_nil
    · rw [htext]
      exact all_continuesName_toDigits _
    · rw [htext]
      exact toDigits_ne _ (by decide)
    · rw [htext, ofWord_digits, hvalue]
  · rw [if_neg hn] at htext
    have hvalue : Int64.ofInt (-((-n.toInt).toNat : Int)) = n := by
      rw [Int.toNat_of_nonneg (by omega), Int.neg_neg, Int64.ofInt_toInt]
    intro rest hrest
    have hend : ∀ d ∈ rest.head?, d.isDigit = false := by
      intro d hd
      have hword := hrest d hd
      rw [continuesName, Bool.or_eq_false_iff] at hword
      exact hword.2
    have hdigit : (Nat.toDigits 10 (-n.toInt).toNat ++ rest).head?.any Char.isDigit := by
      rw [any_head?_append Nat.toDigits_ne_nil]
      exact head?_toDigits _
    rw [htext, List.cons_append, readOperand_sign, if_pos hdigit,
      takeWhile_word (all_isDigit_toDigits _) hend, dropWhile_word (all_isDigit_toDigits _) hend,
      Nat.ofDigitChars_ten_toDigits, hvalue]

theorem vars_subset_of_mem_children (h : a ∈ e.children) : a.vars ⊆ e.vars := by
  intro x hx
  cases e with
  | var | int | bool => cases h
  | unary op b =>
    cases List.mem_singleton.1 h
    exact hx
  | binary op b c =>
    simp only [children, List.mem_cons, List.not_mem_nil, or_false] at h
    rcases h with rfl | rfl <;> simp [vars, hx]
  | ite c t e =>
    simp only [children, List.mem_cons, List.not_mem_nil, or_false] at h
    rcases h with rfl | rfl | rfl <;> simp [vars, hx]

/-- A folded expression all of whose names are plain. -/
def Legible (e : Expr) : Prop :=
  e.Folded ∧ ∀ x ∈ e.vars, IsPlainName x

theorem Legible.of_mem_children (h : e.Legible) (ha : a ∈ e.children) : a.Legible := by
  constructor
  · exact h.1.of_mem_children ha
  · intro x hx
    exact h.2 x (vars_subset_of_mem_children ha hx)

/-- After a sign that is no part of a literal there is no digit. -/
theorem Legible.negate_operand (h : (unary .negate a).Legible) (rest : List Char) :
    ¬ (a.operandText.toList ++ rest).head?.any Char.isDigit := by
  cases a with
  | var x =>
    have hx : IsPlainName x := h.2 x List.mem_cons_self
    have htext : (var x).operandText = x := rfl
    rw [htext, any_head?_append hx.ne_nil]
    exact head?_of_startsName hx.1
  | int n =>
    -- The negation of a literal is folded unless its value does not fit.
    have hundefined : Value.ofInt? (-n.toInt) = none := h.1.irreducible.1 (.int n) rfl
    have hn : ¬ 0 ≤ n.toInt := by
      intro hn
      have hlt := n.toInt_lt
      rw [Value.ofInt?, Int64.toInt_minValue, Int64.toInt_maxValue, if_pos (by omega)] at hundefined
      cases hundefined
    rw [toList_text_int, if_neg hn]
    exact Bool.false_ne_true
  | bool b => cases b <;> exact Bool.false_ne_true
  | unary op b =>
    rw [toList_text_unary]
    cases op <;> exact Bool.false_ne_true
  | binary op b c =>
    rw [toList_text_compound rfl]
    exact Bool.false_ne_true
  | ite c t e =>
    rw [toList_text_compound rfl]
    exact Bool.false_ne_true

theorem reads_unary (h : (unary op a).Legible) (ha : Reads (readOperand fuel) a) :
    Reads (readOperand (fuel + 1)) (unary op a) := by
  intro rest hrest
  have hread := ha.unary op hrest
  rw [toList_text_unary]
  cases op with
  | not =>
    have hnot : UnaryOp.not.glyph.toList = "not".toList ++ " ".toList := by decide
    rw [hnot, List.append_assoc, readOperand_word fuel (by decide) (by decide) (endsWord_blank _),
      if_pos rfl, takeOff?_append, Option.bind_some, hread]
  | invert => exact hread
  | negate =>
    have hdigit := h.negate_operand rest
    have hsign : UnaryOp.negate.glyph.toList = ['-'] := by decide
    rw [hsign, List.singleton_append, readOperand_sign, if_neg hdigit, hread]

theorem Legible.reads (h : e.Legible) (hfuel : e.size ≤ fuel) : Reads (readOperand fuel) e := by
  induction fuel generalizing e with
  | zero => cases e <;> simp [size] at hfuel
  | succ fuel ih =>
    -- The operands are smaller, so the rest of the fuel is enough for them.
    have hchild (a : Expr) (ha : a ∈ e.children) : Reads (readOperand fuel) a := by
      have hsize := size_lt_of_mem_children ha
      exact ih (h.of_mem_children ha) (by omega)
    cases e with
    | var x => exact reads_var (h.2 x List.mem_cons_self)
    | int n => exact reads_int n
    | bool b =>
      apply reads_word
      · cases b <;> decide
      · cases b <;> decide
      · cases b <;> decide
      · exact ofWord_bool b
    | unary op a => exact reads_unary h (hchild a (by simp [children]))
    | binary op a b =>
      apply reads_compound rfl
      intro rest
      exact (hchild a (by simp [children])).binary (hchild b (by simp [children])) op
    | ite c a b =>
      apply reads_compound rfl
      intro rest
      exact (hchild c (by simp [children])).ite (hchild a (by simp [children]))
        (hchild b (by simp [children]))

theorem Legible.readOperand (h : e.Legible) (hfuel : e.size ≤ fuel) :
    readOperand fuel e.operandText.toList = some (e, []) := by
  have hread := h.reads hfuel [] (by simp [EndsWord])
  rwa [List.append_nil] at hread

theorem Legible.operandText_injective (ha : a.Legible) (hb : b.Legible)
    (h : a.operandText = b.operandText) : a = b := by
  have hread := ha.readOperand (Nat.le_add_right a.size b.size)
  rw [h, hb.readOperand (Nat.le_add_left b.size a.size)] at hread
  cases hread
  rfl

theorem operandText_of_not_isCompound (h : e.isCompound = false) : e.operandText = e.text := by
  rw [operandText, h]
  rfl

/-- The text of a compound expression goes on after its first operand. -/
theorem exists_first_operand (h : e.isCompound = true) :
    ∃ a ∈ e.children, ∃ rest, e.text.toList = a.operandText.toList ++ (" ".toList ++ rest) := by
  cases e with
  | var | int | bool | unary => cases h
  | binary op a b =>
    have htext := toList_text_binary op a b []
    rw [List.append_nil] at htext
    exact ⟨a, by simp [children], _, htext⟩
  | ite c a b =>
    have htext := toList_text_ite c a b []
    rw [List.append_nil] at htext
    exact ⟨a, by simp [children], _, htext⟩

theorem Legible.text_ne (ha : a.Legible) (hb : b.Legible) (hca : a.isCompound = true)
    (hcb : b.isCompound = false) : a.text ≠ b.text := by
  intro h
  -- Read as an operand, the one text ends after its first operand and the other at its end.
  obtain ⟨d, hd, rest, htext⟩ := exists_first_operand hca
  have hfirst := (ha.of_mem_children hd).reads (Nat.le_add_right d.size b.size) _
    (endsWord_blank rest)
  have hwhole := hb.readOperand (Nat.le_add_left b.size d.size)
  rw [← htext, h, ← operandText_of_not_isCompound hcb, hwhole] at hfirst
  cases hfirst

theorem Legible.text_injective (ha : a.Legible) (hb : b.Legible) (h : a.text = b.text) :
    a = b := by
  have hc : a.isCompound = b.isCompound := by
    cases hca : a.isCompound with
    | true =>
      cases hcb : b.isCompound with
      | true => rfl
      | false => exact absurd h (ha.text_ne hb hca hcb)
    | false =>
      cases hcb : b.isCompound with
      | true => exact absurd h.symm (hb.text_ne ha hcb hca)
      | false => rfl
  apply ha.operandText_injective hb
  rw [operandText, operandText, hc, h]

end Expr

open Pool

/-- What folding leaves alone is folded. -/
theorem Pool.folded_of_fold_eq {p : Pool} (hp : p.WellFormed) (hr : p.Denotes r x)
    (h : ((Pool.fold r).run p).1 = r) : x.Folded := by
  obtain ⟨hgrows, hfolded⟩ := adds_fold hp hr
  rw [h] at hfolded
  rw [(hr.mono hgrows).unique hgrows.wellFormed hfolded]
  exact x.folded_fold

/-- Among the expressions of a pool that folding leaves alone and whose names are plain, no two have
one text. -/
theorem text_unambiguous {p : Pool} {r s : ExprRef} {x y : Expr} (hp : p.WellFormed)
    (hr : p.expr? r = some x) (hs : p.expr? s = some y) (hfoldr : ((Pool.fold r).run p).1 = r)
    (hfolds : ((Pool.fold s).run p).1 = s) (hx : ∀ n ∈ x.vars, IsPlainName n)
    (hy : ∀ n ∈ y.vars, IsPlainName n) : x.text = y.text ↔ r = s := by
  have hr := (expr?_eq_some hp).1 hr
  have hs := (expr?_eq_some hp).1 hs
  constructor
  · intro h
    have hxl : x.Legible := ⟨folded_of_fold_eq hp hr hfoldr, hx⟩
    have hyl : y.Legible := ⟨folded_of_fold_eq hp hs hfolds, hy⟩
    rw [hxl.text_injective hyl h] at hr
    exact hr.injective hp hs
  · rintro rfl
    rw [hr.unique hp hs]

/-- A sign before a literal is read as a part of it, which is why the expressions have to be
folded. -/
example : (Expr.unary .negate (.int 5)).text = (Expr.int (-5)).text := by decide

/-- Takes a truth value from the negation of the least integer, which has no value. -/
def negatedLeast (truth : Expr) : Expr :=
  .binary .sub (.unary .negate (.int Int64.minValue)) truth

/-- `--9223372036854775808 - (not a and b)` and `--9223372036854775808 - not (a and b)`. -/
theorem text_unambiguous_negatedLeast :
    let first := negatedLeast (.binary .and (.unary .not (.var "a")) (.var "b"))
    let second := negatedLeast (.unary .not (.binary .and (.var "a") (.var "b")))
    let pool := (([first, second].mapM addExpr).run .empty).2
    pool.WellFormed ∧ pool.expr? ⟨6⟩ = some first ∧ pool.expr? ⟨9⟩ = some second ∧
      ((Pool.fold ⟨6⟩).run pool).1 = ⟨6⟩ ∧ ((Pool.fold ⟨9⟩).run pool).1 = ⟨9⟩ ∧
      (∀ n ∈ first.vars, IsPlainName n) ∧ (∀ n ∈ second.vars, IsPlainName n) ∧
      first.text ≠ second.text := by
  intro first second pool
  have hpool : pool.WellFormed := (adds_addExprs wellFormed_empty _).grows.wellFormed
  have hfirst : pool.expr? ⟨6⟩ = some first := by decide +kernel
  have hsecond : pool.expr? ⟨9⟩ = some second := by decide +kernel
  have hfold₁ : ((Pool.fold ⟨6⟩).run pool).1 = ⟨6⟩ := by decide +kernel
  have hfold₂ : ((Pool.fold ⟨9⟩).run pool).1 = ⟨9⟩ := by decide +kernel
  have hnames₁ : ∀ n ∈ first.vars, IsPlainName n := by decide +kernel
  have hnames₂ : ∀ n ∈ second.vars, IsPlainName n := by decide +kernel
  have hiff := text_unambiguous hpool hfirst hsecond hfold₁ hfold₂ hnames₁ hnames₂
  have hne : (⟨6⟩ : ExprRef) ≠ ⟨9⟩ := by decide
  exact ⟨hpool, hfirst, hsecond, hfold₁, hfold₂, hnames₁, hnames₂, fun h => hne (hiff.1 h)⟩

end Clockwork
