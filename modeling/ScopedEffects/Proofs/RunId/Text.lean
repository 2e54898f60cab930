import Mathlib.Data.Nat.Init
import Mathlib.Data.List.Induction
import Mathlib.Tactic.Ring
import ScopedEffects.RunId

/-! The text of an identifier is a code: reading undoes writing, texts sort as the numbers do, and a
text that is read without dropping a bit is written again in capital letters. -/

namespace ScopedEffects

namespace Json.Reader

/-- A character that stands for itself within the quotes of a JSON text. -/
def Plain (c : Char) : Prop := c ≠ '"' ∧ c ≠ '\\' ∧ ¬ c.toNat < 0x20

instance (c : Char) : Decidable (Plain c) := inferInstanceAs (Decidable (_ ∧ _))

theorem stringRest_cons {c : Char} (plain : Plain c) (fuel : Nat) (read rest : List Char) :
    stringRest (fuel + 1) read (c :: rest) = stringRest fuel (c :: read) rest := by
  obtain ⟨quote, backslash, control⟩ := plain
  show (if c = '"' then _ else if c = '\\' then _ else if c.toNat < 0x20 then _ else _ :
    Reader (List Char)) rest = _
  rw [if_neg quote, if_neg backslash, if_neg control]

theorem stringRest_plain {cs : List Char} (plain : ∀ c ∈ cs, Plain c) (read rest : List Char)
    {fuel : Nat} (enough : cs.length < fuel) :
    stringRest fuel read (cs ++ '"' :: rest) = .ok (cs.reverse ++ read, rest) := by
  obtain ⟨fuel, rfl⟩ := Nat.exists_eq_succ_of_ne_zero (Nat.ne_of_gt (Nat.zero_lt_of_lt enough))
  induction cs generalizing read fuel with
  | nil => rfl
  | cons c cs ih =>
    have fewer : cs.length < fuel := Nat.lt_of_succ_lt_succ enough
    obtain ⟨fuel, rfl⟩ := Nat.exists_eq_succ_of_ne_zero (Nat.ne_of_gt (Nat.zero_lt_of_lt fewer))
    rw [List.cons_append, stringRest_cons (plain c List.mem_cons_self),
      ih (fun d hd => plain d (List.mem_cons_of_mem _ hd)) (c :: read) fuel fewer]
    simp

theorem stringBody_plain {s : String} (plain : ∀ c ∈ s.toList, Plain c) :
    stringBody (s.toList ++ ['"']) = .ok (s, []) := by
  have enough : s.toList.length < (s.toList ++ ['"']).length + 1 := by
    rw [List.length_append]
    omega
  have read := stringRest_plain plain [] [] enough
  show Except.bind (stringRest _ [] (s.toList ++ ['"'])) _ = _
  rw [read]
  show Except.ok (String.ofList (s.toList.reverse ++ []).reverse, []) = _
  rw [List.append_nil, List.reverse_reverse, String.ofList_toList]

/-- A text of plain characters in quotes is read as it stands. -/
theorem string_quoted {s : String} (plain : ∀ c ∈ s.toList, Plain c) :
    string.run ("\"" ++ s ++ "\"") = .ok s := by
  have quoted : ("\"" ++ s ++ "\"").toList = '"' :: (s.toList ++ ['"']) := by simp
  have body : string ('"' :: (s.toList ++ ['"'])) = .ok (s, []) := stringBody_plain plain
  show Except.map Prod.fst (Except.bind (string ("\"" ++ s ++ "\"").toList) _) = _
  rw [quoted, body]
  rfl

end Json.Reader

namespace RunId

/-! Digits -/

theorem digit_mod (n : Nat) : digit (n % 32) = digit n := by
  simp [digit]

theorem digitValue?_digit (n : Nat) : digitValue? (digit n) = some (n % 32) := by
  have all : ∀ m < 32, digitValue? (digit m) = some m := by decide +kernel
  rw [← digit_mod]
  exact all _ (Nat.mod_lt _ (by decide))

theorem plain_digit (n : Nat) : Json.Reader.Plain (digit n) := by
  have all : ∀ m < 32, Json.Reader.Plain (digit m) := by decide +kernel
  rw [← digit_mod]
  exact all _ (Nat.mod_lt _ (by decide))

theorem digit_lt_digit {m n : Nat} : digit m < digit n ↔ m % 32 < n % 32 := by
  have all : ∀ m < 32, ∀ n < 32, (digit m < digit n ↔ m < n) := by decide +kernel
  rw [← digit_mod m, ← digit_mod n]
  exact all _ (Nat.mod_lt _ (by decide)) _ (Nat.mod_lt _ (by decide))

theorem digitValue?_eq_some {c : Char} {v : Nat} (h : digitValue? c = some v) :
    v < 32 ∧ c.toUpper = digit v := by
  obtain ⟨small, same, -⟩ := List.findIdx?_eq_some_iff_getElem.1 h
  have below : v < 32 := small
  refine ⟨below, ?_⟩
  have listed : alphabet.getD v '0' = c.toUpper := by
    rw [List.getD, List.getElem?_eq_getElem small, Option.getD_some]
    exact of_decide_eq_true same
  rw [digit, Nat.mod_eq_of_lt below, listed]

theorem digit_inj {m n : Nat} : digit m = digit n ↔ m % 32 = n % 32 := by
  refine ⟨fun same => ?_, fun same => by rw [← digit_mod, same, digit_mod]⟩
  have values := congrArg digitValue? same
  rwa [digitValue?_digit, digitValue?_digit, Option.some.injEq] at values

/-- The first eight digits alone stand for less than eight. -/
theorem digit_le_seven {v : Nat} (below : v < 32) (low : digit v ≤ '7') : v < 8 := by
  have all : ∀ v < 32, digit v ≤ '7' → v < 8 := by decide +kernel
  exact all v below low

theorem toUpper_of_le {c : Char} (low : c ≤ '7') : c.toUpper = c := by
  have below : ¬ 'a'.val ≤ c.val := fun h => absurd (UInt32.le_trans h low) (by decide)
  exact dif_neg fun lower => below lower.1

/-! Numbers and their digits -/

@[simp]
theorem length_digitsOf (n count : Nat) : (digitsOf n count).length = count := by
  induction count generalizing n with
  | zero => rfl
  | succ count ih => simp [digitsOf, ih]

theorem plain_of_mem_digitsOf {n count : Nat} {c : Char} (h : c ∈ digitsOf n count) :
    Json.Reader.Plain c := by
  induction count generalizing n with
  | zero => cases h
  | succ count ih =>
    rcases List.mem_append.1 h with h | h
    · exact ih h
    · exact List.mem_singleton.1 h ▸ plain_digit n

/-- The digits from the front: the first one, and those of the number without it. -/
theorem digitsOf_succ (n count : Nat) :
    digitsOf n (count + 1) = digit (n / 32 ^ count) :: digitsOf n count := by
  induction count generalizing n with
  | zero => simp [digitsOf]
  | succ count ih =>
    rw [digitsOf, ih, Nat.div_div_eq_div_mul, ← Nat.pow_succ']
    rfl

theorem valueOf?_snoc (cs : List Char) (c : Char) :
    valueOf? (cs ++ [c]) = (valueOf? cs).bind fun n => (digitValue? c).map (n * 32 + ·) := by
  simp [valueOf?, List.foldlM_append]

theorem valueOf?_digitsOf (n count : Nat) :
    valueOf? (digitsOf n count) = some (n % 32 ^ count) := by
  induction count generalizing n with
  | zero => simp [digitsOf, valueOf?, Nat.mod_one]
  | succ count ih =>
    have split := Nat.mod_mul (x := n) (a := 32) (b := 32 ^ count)
    rw [digitsOf, valueOf?_snoc, ih, digitValue?_digit, Nat.pow_succ']
    simp only [Option.bind_some, Option.map_some, Option.some.injEq]
    omega

/-- The digits of the number that a text stands for are the text in capital letters. -/
theorem digitsOf_of_valueOf? {cs : List Char} {n : Nat} (h : valueOf? cs = some n) :
    digitsOf n cs.length = cs.map Char.toUpper := by
  induction cs using List.reverseRecOn generalizing n with
  | nil => rfl
  | append_singleton cs c ih =>
    rw [valueOf?_snoc] at h
    obtain ⟨m, hm, h⟩ := Option.bind_eq_some_iff.1 h
    obtain ⟨v, hv, rfl⟩ := Option.map_eq_some_iff.1 h
    obtain ⟨below, upper⟩ := digitValue?_eq_some hv
    have front : (m * 32 + v) / 32 = m := by omega
    have last : digit (m * 32 + v) = digit v := by rw [← digit_mod, ← digit_mod v]; congr 1; omega
    rw [List.length_append, List.length_singleton, digitsOf, front, ih hm, last, List.map_append,
      List.map_singleton, upper]

/-- A text begins with the digit that its number begins with. -/
theorem digit_of_valueOf?_cons {c : Char} {cs : List Char} {n : Nat}
    (h : valueOf? (c :: cs) = some n) : c.toUpper = digit (n / 32 ^ cs.length) := by
  have whole := digitsOf_of_valueOf? h
  rw [List.length_cons, digitsOf_succ, List.map_cons] at whole
  exact (List.cons.inj whole).1.symm

theorem valueOf?_lt {cs : List Char} {n : Nat} (h : valueOf? cs = some n) : n < 32 ^ cs.length := by
  induction cs using List.reverseRecOn generalizing n with
  | nil => cases h; simp
  | append_singleton cs c ih =>
    rw [valueOf?_snoc] at h
    obtain ⟨m, hm, h⟩ := Option.bind_eq_some_iff.1 h
    obtain ⟨v, hv, rfl⟩ := Option.map_eq_some_iff.1 h
    have below := (digitValue?_eq_some hv).1
    have front := ih hm
    rw [List.length_append, List.length_singleton, Nat.pow_succ]
    omega

/-! Order -/

/-- Of two numbers that are split alike, the greater one has the greater front, or the same front and
the greater rest. -/
theorem mod_mul_lt_mod_mul (x y b c : Nat) (pos : 0 < b) :
    x % (b * c) < y % (b * c) ↔
      x / b % c < y / b % c ∨ x / b % c = y / b % c ∧ x % b < y % b := by
  rw [Nat.mod_mul, Nat.mod_mul]
  have hx := Nat.mod_lt x pos
  have hy := Nat.mod_lt y pos
  rcases Nat.lt_trichotomy (x / b % c) (y / b % c) with less | same | more
  · have front := Nat.mul_le_mul_left b less
    rw [Nat.mul_succ] at front
    omega
  · rw [same]
    omega
  · have front := Nat.mul_le_mul_left b more
    rw [Nat.mul_succ] at front
    omega

/-- The last digits of two numbers sort as the numbers made of them do. -/
theorem digitsOf_lt_digitsOf (x y count : Nat) :
    digitsOf x count < digitsOf y count ↔ x % 32 ^ count < y % 32 ^ count := by
  induction count with
  | zero => simp [digitsOf, Nat.mod_one]
  | succ count ih =>
    rw [digitsOf_succ, digitsOf_succ, List.cons_lt_cons_iff, digit_lt_digit, digit_inj, ih,
      Nat.pow_succ, mod_mul_lt_mod_mul x y _ _ (Nat.pow_pos (by decide))]

/-! Texts -/

theorem ofNat_value (id : RunId) : ofNat id.value = id := by
  cases id with
  | mk value value_lt => simp [ofNat, Nat.mod_eq_of_lt value_lt]

theorem value_mod (id : RunId) : id.value % 32 ^ width = id.value :=
  Nat.mod_eq_of_lt (Nat.lt_trans id.value_lt (by decide))

theorem ofText?_text (id : RunId) : ofText? id.text = some id := by
  simp [ofText?, text, valueOf?_digitsOf, value_mod, ofNat_value]

theorem run_toJson (id : RunId) : Json.Reader.string.run id.toJson = .ok id.text :=
  Json.Reader.string_quoted fun c hc => plain_of_mem_digitsOf (by simpa [text] using hc)

theorem ofJson?_toJson (id : RunId) : ofJson? id.toJson = some id := by
  rw [ofJson?, run_toJson]
  exact ofText?_text id

theorem ofJson?_eq_some {j : String} {id : RunId} :
    ofJson? j = some id ↔ ∃ s, Json.Reader.string.run j = .ok s ∧ ofText? s = some id := by
  unfold ofJson?
  split <;> simp_all

theorem render_lt_render (a b : RunId) : a.render < b.render ↔ a < b := by
  have texts := digitsOf_lt_digitsOf a.value b.value width
  rw [value_mod, value_mod] at texts
  have word (id : RunId) :
      id.render.toList = 'r' :: 'u' :: 'n' :: '-' :: digitsOf id.value width := by
    simp [render, text]
  rw [String.lt_iff, word, word]
  simp only [List.cons_lt_cons_iff, Char.lt_irrefl, true_and, false_or]
  exact texts

/-- What is read from a text whose first digit is less than eight is written as that text in capital
letters. -/
theorem text_of_ofText? {s : String} {id : RunId} (h : ofText? s = some id)
    (low : ∃ c ∈ s.toList.head?, c ≤ '7') : id.text = s.toUpper := by
  obtain ⟨c, first, low⟩ := low
  obtain ⟨cs, chars⟩ := List.head?_eq_some_iff.1 first
  obtain ⟨long, h⟩ := Option.ite_none_right_eq_some.1 h
  obtain ⟨n, value, rfl⟩ := Option.map_eq_some_iff.1 h
  have digits : digitsOf n width = s.toList.map Char.toUpper := long ▸ digitsOf_of_valueOf? value
  have rest : cs.length = 25 := by simpa [chars, width] using long
  -- the digits carry two bits too many, which a first digit of less than eight leaves clear
  have fits : n < 2 ^ 128 := by
    have front : digit (n / 32 ^ 25) ≤ '7' := by
      rw [chars] at value
      rw [← rest, ← digit_of_valueOf?_cons value, toUpper_of_le low]
      exact low
    have small : n / 32 ^ 25 < 32 := by
      have bound := valueOf?_lt value
      rw [long, width] at bound
      omega
    have eight : n / 32 ^ 25 < 8 := digit_le_seven small front
    omega
  have kept : (ofNat n).value = n := Nat.mod_eq_of_lt fits
  rw [text, kept, digits, String.toUpper, ← String.toList_map, String.ofList_toList]

theorem toJson_of_ofText? {s : String} {id : RunId} (h : ofText? s = some id)
    (low : ∃ c ∈ s.toList.head?, c ≤ '7') : id.toJson = "\"" ++ s.toUpper ++ "\"" := by
  rw [toJson, text_of_ofText? h low]

/-- The text of an identifier is a faithful and ordered code. A text of an identifier that is read
from JSON is what `ofText?` takes. -/
theorem text_faithful_and_ordered :
    (∀ id : RunId, ofJson? id.toJson = some id) ∧
    (∀ a b : RunId, a < b ↔ a.render < b.render) ∧
    (∀ (s : String) (id : RunId), ofText? s = some id → (∃ c ∈ s.toList.head?, c ≤ '7') →
      id.toJson = "\"" ++ s.toUpper ++ "\"") ∧
    (∀ (s t : String) (id : RunId), ofText? s = some id → ofText? t = some id →
      (∃ c ∈ s.toList.head?, c ≤ '7') → (∃ c ∈ t.toList.head?, c ≤ '7') →
      s.toUpper = t.toUpper) ∧
    ∀ (j : String) (id : RunId), ofJson? j = some id ↔
      ∃ s, Json.Reader.string.run j = .ok s ∧ ofText? s = some id := by
  refine ⟨ofJson?_toJson, fun a b => (render_lt_render a b).symm, fun s id => toJson_of_ofText?, ?_,
    fun j id => ofJson?_eq_some⟩
  intro s t id hs ht lows lowt
  rw [← text_of_ofText? hs lows, ← text_of_ofText? ht lowt]

end RunId

end ScopedEffects
