import Mathlib.Tactic

/-!
# Writing JSON text

The bytes a JSON serializer writes, over values that are already written: quoted strings with
minimal escapes, decimal integers, and objects in compact form and in the two-space indented form.
The text of a string of plain ASCII characters is two bytes longer than the string (`length_quote`).

A property that concatenation keeps and that every character from the blank on has (`Spelled`)
holds of all compact text: it has no raw line feed (`spelled_nl`) and is UTF-8 (`spelled_utf8`).
-/

/-- File contents and text on the wire. -/
abbrev Bytes := List UInt8

namespace JsonText

/-- The line feed. -/
def nl : UInt8 := 10

/-- The bytes of an ASCII text. -/
def ascii (s : String) : Bytes := s.toList.map fun c => UInt8.ofNat c.toNat

/-- The bytes of a text in UTF-8. -/
def utf8 (s : String) : Bytes := s.toList.flatMap String.utf8EncodeChar

/-- A lowercase hexadecimal digit. -/
def hexDigit (n : Nat) : UInt8 := if n < 10 then UInt8.ofNat (48 + n) else UInt8.ofNat (87 + n)

/-- One character inside a quoted string. -/
def escapeChar (c : Char) : Bytes :=
  if c.toNat = 34 then [92, 34]
  else if c.toNat = 92 then [92, 92]
  else if c.toNat = 8 then [92, 98]
  else if c.toNat = 9 then [92, 116]
  else if c.toNat = 10 then [92, 110]
  else if c.toNat = 12 then [92, 102]
  else if c.toNat = 13 then [92, 114]
  else if c.toNat < 32 then [92, 117, 48, 48, hexDigit (c.toNat / 16), hexDigit (c.toNat % 16)]
  else String.utf8EncodeChar c

/-- A quoted string. -/
def quote (s : String) : Bytes := 34 :: (s.toList.flatMap escapeChar ++ [34])

/-- A natural number in decimal. -/
def decimalNat (n : Nat) : Bytes := (Nat.toDigits 10 n).map fun c => UInt8.ofNat c.toNat

/-- An integer in decimal. -/
def decimal (i : Int) : Bytes :=
  if i < 0 then 45 :: decimalNat i.natAbs else decimalNat i.natAbs

/-- A written value, or `null`. -/
def orNull : Option Bytes → Bytes
  | none => ascii "null"
  | some v => v

def bool (b : Bool) : Bytes := ascii (if b then "true" else "false")

/-- The members of an object: keys with written values. -/
abbrev Members := List (String × Bytes)

/-- An object without white space. -/
def object (ms : Members) : Bytes :=
  123 :: (List.intercalate [44] (ms.map fun m => quote m.1 ++ 58 :: m.2) ++ [125])

/-- An array without white space. -/
def array (vs : List Bytes) : Bytes := 91 :: (List.intercalate [44] vs ++ [93])

def indent (depth : Nat) : Bytes := List.replicate (2 * depth) 32

/-- A non-empty object with one member a line, `depth` levels deep. -/
def prettyObject (depth : Nat) (ms : Members) : Bytes :=
  123 :: ((List.intercalate [44] (ms.map fun m =>
    nl :: (indent (depth + 1) ++ quote m.1 ++ [58, 32] ++ m.2))) ++ nl :: (indent depth ++ [125]))

/-! ## Lengths of lists -/

/-- One more value needs its text, and a comma unless it is the first. -/
theorem length_intercalate_concat (vs : List Bytes) (v : Bytes) :
    (List.intercalate [44] (vs ++ [v])).length =
      (List.intercalate [44] vs).length + v.length + (if vs.isEmpty then 0 else 1) := by
  induction vs with
  | nil => simp
  | cons u us ih =>
    cases us with
    | nil =>
      simp only [List.cons_append, List.nil_append, List.intercalate_cons_cons,
        List.intercalate_singleton, List.length_append, List.length_cons, List.length_nil,
        List.isEmpty_cons, Bool.false_eq_true, if_false]
      omega
    | cons t ts =>
      simp only [List.cons_append, List.intercalate_cons_cons, List.length_append,
        List.isEmpty_cons, Bool.false_eq_true, if_false] at ih ⊢
      omega

/-- The brackets and the values between them. -/
theorem length_array (vs : List Bytes) :
    (array vs).length = (array []).length + (List.intercalate [44] vs).length := by
  unfold array
  simp only [List.length_cons, List.length_append, List.intercalate_nil, List.length_nil]
  omega

theorem length_intercalate_le (vs : List Bytes) :
    (List.intercalate [44] vs).length ≤ (vs.map fun v => v.length + 1).sum := by
  induction vs with
  | nil => simp
  | cons v vs ih =>
    cases vs with
    | nil => simp
    | cons u us =>
      rw [List.intercalate_cons_cons, List.map_cons, List.sum_cons]
      simp only [List.length_append, List.length_cons, List.length_nil]
      omega

/-- Each member of an object adds its key, its value, a colon and at most one comma. -/
theorem length_object_le (ms : Members) :
    (object ms).length ≤ 2 + (ms.map fun m => (quote m.1).length + m.2.length + 2).sum := by
  have hle := length_intercalate_le (ms.map fun m => quote m.1 ++ 58 :: m.2)
  have hsum : (ms.map fun m => quote m.1 ++ 58 :: m.2).map (fun v => v.length + 1) =
      ms.map fun m => (quote m.1).length + m.2.length + 2 := by
    rw [List.map_map]
    apply List.map_congr_left
    intro m _
    simp only [Function.comp_apply, List.length_append, List.length_cons]
    omega
  rw [hsum] at hle
  unfold object
  rw [List.length_cons, List.length_append, List.length_singleton]
  omega

/-- Each member of an indented object has a line of its own. -/
theorem length_prettyObject_le (depth : Nat) (ms : Members) :
    (prettyObject depth ms).length ≤ 2 * depth + 3 +
      (ms.map fun m => (quote m.1).length + m.2.length + (2 * depth + 6)).sum := by
  have hle := length_intercalate_le (ms.map fun m =>
    nl :: (indent (depth + 1) ++ quote m.1 ++ [58, 32] ++ m.2))
  have hsum : (ms.map fun m => nl :: (indent (depth + 1) ++ quote m.1 ++ [58, 32] ++ m.2)).map
      (fun v => v.length + 1) =
      ms.map fun m => (quote m.1).length + m.2.length + (2 * depth + 6) := by
    rw [List.map_map]
    apply List.map_congr_left
    intro m _
    simp only [Function.comp_apply, List.length_append, List.length_cons, List.length_nil, indent,
      List.length_replicate]
    omega
  rw [hsum] at hle
  unfold prettyObject
  simp only [List.length_append, List.length_cons, List.length_nil, indent, List.length_replicate]
    at hle ⊢
  omega

/-! ## Plain characters -/

/-- Printable ASCII that needs no escape. -/
def Plain (c : Char) : Prop :=
  32 ≤ c.toNat ∧ c.toNat < 128 ∧ c.toNat ≠ 34 ∧ c.toNat ≠ 92

instance (c : Char) : Decidable (Plain c) := by unfold Plain; infer_instance

theorem escapeChar_plain {c : Char} (h : Plain c) : escapeChar c = [UInt8.ofNat c.toNat] := by
  obtain ⟨h1, h2, h3, h4⟩ := h
  unfold escapeChar
  rw [if_neg h3, if_neg h4, if_neg (by omega), if_neg (by omega), if_neg (by omega),
    if_neg (by omega), if_neg (by omega), if_neg (by omega)]
  unfold String.utf8EncodeChar
  have hv : c.val.toNat ≤ 127 := by
    have : c.toNat = c.val.toNat := rfl
    omega
  simp only [hv, ↓reduceIte]
  rfl

theorem length_flatMap_plain {cs : List Char} (h : ∀ c ∈ cs, Plain c) :
    (cs.flatMap escapeChar).length = cs.length := by
  induction cs with
  | nil => rfl
  | cons c cs ih =>
    rw [List.flatMap_cons, List.length_append, escapeChar_plain (h c List.mem_cons_self),
      ih (fun d hd => h d (List.mem_cons_of_mem c hd))]
    simp only [List.length_cons, List.length_nil]
    omega

/-- The text of a string of plain characters adds the two quotes. -/
theorem length_quote {s : String} (h : ∀ c ∈ s.toList, Plain c) :
    (quote s).length = s.toList.length + 2 := by
  unfold quote
  rw [List.length_cons, List.length_append, length_flatMap_plain h]
  rfl

theorem length_escapeChar_le (c : Char) : (escapeChar c).length ≤ 6 := by
  unfold escapeChar
  split_ifs
  any_goals decide
  · exact Nat.le_refl 6
  · unfold String.utf8EncodeChar
    simp only
    split_ifs <;> simp

/-- At worst every character is spelled out. -/
theorem length_quote_le (s : String) : (quote s).length ≤ 6 * s.toList.length + 2 := by
  have hchars : ∀ cs : List Char, (cs.flatMap escapeChar).length ≤ 6 * cs.length := by
    intro cs
    induction cs with
    | nil => exact Nat.le_refl 0
    | cons c cs ih =>
      have hc := length_escapeChar_le c
      rw [List.flatMap_cons, List.length_append, List.length_cons]
      omega
  have hs := hchars s.toList
  unfold quote
  rw [List.length_cons, List.length_append, List.length_singleton]
  omega

theorem length_toList_le_utf8 (s : String) : s.toList.length ≤ (utf8 s).length := by
  unfold utf8
  induction s.toList with
  | nil => exact Nat.le_refl 0
  | cons c cs ih =>
    have hpos := c.utf8Size_pos
    rw [List.flatMap_cons, List.length_append, List.length_cons, String.length_utf8EncodeChar]
    omega

theorem length_quote_replicate (n : Nat) :
    (quote (String.ofList (List.replicate n 'a'))).length = n + 2 := by
  have hplain : ∀ c ∈ (String.ofList (List.replicate n 'a')).toList, Plain c := by
    intro c hc
    rw [String.toList_ofList] at hc
    rw [List.eq_of_mem_replicate hc]
    decide
  rw [length_quote hplain, String.toList_ofList, List.length_replicate]

/-! ## What compact text is made of -/

/-- A property of texts that concatenation keeps and every character from the blank on has. -/
structure Spelled (Q : Bytes → Prop) : Prop where
  nil : Q []
  append : ∀ {a b : Bytes}, Q a → Q b → Q (a ++ b)
  char : ∀ c : Char, 32 ≤ c.toNat → Q (String.utf8EncodeChar c)

namespace Spelled

variable {Q : Bytes → Prop} (h : Spelled Q)
include h

theorem byte {n : Nat} (lo : 32 ≤ n) (hi : n < 128) : Q [UInt8.ofNat n] := by
  have hv : n.isValidChar := Or.inl (by omega)
  have hn : (Char.ofNat n).toNat = n := by
    unfold Char.ofNat Char.toNat
    rw [dif_pos hv]
    rfl
  have := h.char (Char.ofNat n) (by omega)
  unfold String.utf8EncodeChar at this
  have hle : (Char.ofNat n).val.toNat ≤ 127 := by
    change (Char.ofNat n).toNat ≤ 127
    omega
  simp only [hle, ↓reduceIte] at this
  change Q [UInt8.ofNat (Char.ofNat n).toNat] at this
  rwa [hn] at this

theorem cons {n : Nat} (lo : 32 ≤ n) (hi : n < 128) {bs : Bytes} (hb : Q bs) :
    Q (UInt8.ofNat n :: bs) :=
  h.append (h.byte lo hi) hb

theorem flatMap {α : Type} {f : α → Bytes} {xs : List α} (hf : ∀ x ∈ xs, Q (f x)) :
    Q (xs.flatMap f) := by
  induction xs with
  | nil => exact h.nil
  | cons x xs ih =>
    rw [List.flatMap_cons]
    exact h.append (hf x (by simp)) (ih fun y hy => hf y (List.mem_cons_of_mem x hy))

theorem hexDigit {n : Nat} (hn : n < 16) : Q [hexDigit n] := by
  unfold JsonText.hexDigit
  split
  · exact h.byte (by omega) (by omega)
  · exact h.byte (by omega) (by omega)

theorem escape {n : Nat} (lo : 32 ≤ n) (hi : n < 128) : Q [92, UInt8.ofNat n] :=
  h.cons (by decide : 32 ≤ 92) (by decide) (h.byte lo hi)

theorem escapeChar (c : Char) : Q (escapeChar c) := by
  unfold JsonText.escapeChar
  split
  · exact h.escape (n := 34) (by decide) (by decide)
  split
  · exact h.escape (n := 92) (by decide) (by decide)
  split
  · exact h.escape (n := 98) (by decide) (by decide)
  split
  · exact h.escape (n := 116) (by decide) (by decide)
  split
  · exact h.escape (n := 110) (by decide) (by decide)
  split
  · exact h.escape (n := 102) (by decide) (by decide)
  split
  · exact h.escape (n := 114) (by decide) (by decide)
  split
  · refine h.append (h.escape (n := 117) (by decide) (by decide)) ?_
    refine h.cons (n := 48) (by decide) (by decide) (h.cons (n := 48) (by decide) (by decide) ?_)
    exact h.append (h.hexDigit (by omega)) (h.hexDigit (by omega))
  · exact h.char c (by omega)

theorem quote (s : String) : Q (quote s) := by
  refine h.cons (n := 34) (by decide) (by decide) (h.append ?_ (h.byte (by decide) (by decide)))
  exact h.flatMap fun c _ => h.escapeChar c

theorem ascii {s : String} (hs : s.toList.all fun c => 32 ≤ c.toNat ∧ c.toNat < 128) :
    Q (ascii s) := by
  unfold JsonText.ascii
  rw [List.map_eq_flatMap]
  refine h.flatMap fun c hc => ?_
  have hc := of_decide_eq_true (List.all_eq_true.1 hs c hc)
  exact h.byte hc.1 hc.2

theorem decimalNat (n : Nat) : Q (decimalNat n) := by
  unfold JsonText.decimalNat
  rw [List.map_eq_flatMap]
  refine h.flatMap fun c hc => ?_
  have hd := Nat.isDigit_of_mem_toDigits (by decide) (by decide) hc
  simp only [Char.isDigit, Bool.and_eq_true, decide_eq_true_eq, ge_iff_le] at hd
  have h1 : 48 ≤ c.toNat := hd.1
  have h2 : c.toNat ≤ 57 := hd.2
  exact h.byte (by omega) (by omega)

theorem bool (b : Bool) : Q (bool b) := by
  cases b with
  | true => exact h.ascii (by decide)
  | false => exact h.ascii (by decide)

theorem orNull {o : Option Bytes} (ho : ∀ v ∈ o, Q v) : Q (orNull o) := by
  cases o with
  | none => exact h.ascii (by decide)
  | some v => exact ho v rfl

theorem intercalate {ps : List Bytes} (hp : ∀ p ∈ ps, Q p) : Q (List.intercalate [44] ps) := by
  induction ps with
  | nil => simpa [List.intercalate] using h.nil
  | cons p ps ih =>
    cases ps with
    | nil => simpa [List.intercalate] using hp p (by simp)
    | cons q qs =>
      rw [List.intercalate_cons_cons]
      refine h.append (h.append (hp p (by simp)) (h.byte (n := 44) (by decide) (by decide))) ?_
      exact ih fun r hr => hp r (List.mem_cons_of_mem p hr)

theorem object {ms : Members} (hm : ∀ m ∈ ms, Q m.2) : Q (object ms) := by
  refine h.cons (n := 123) (by decide) (by decide)
    (h.append (h.intercalate ?_) (h.byte (by decide) (by decide)))
  intro p hp
  obtain ⟨m, hmem, rfl⟩ := List.mem_map.1 hp
  exact h.append (h.quote m.1) (h.cons (n := 58) (by decide) (by decide) (hm m hmem))

end Spelled

/-- Compact text has no raw line feed. -/
theorem spelled_nl : Spelled (nl ∉ ·) where
  nil := by simp
  append ha hb := by simp only [List.mem_append, not_or]; exact ⟨ha, hb⟩
  char c hc := by
    have hlt : c.val.toNat < 1114112 := by
      rcases c.valid with h | ⟨_, h⟩
      · exact Nat.lt_trans h (by decide)
      · exact h
    have hv : 32 ≤ c.val.toNat := hc
    have key : ∀ n, n < 256 → n ≠ 10 → (10 : UInt8) ≠ UInt8.ofNat n := by
      intro n hn hne he
      have := congrArg UInt8.toNat he
      rw [UInt8.toNat_ofNat', Nat.mod_eq_of_lt (by omega)] at this
      exact hne this.symm
    unfold String.utf8EncodeChar nl
    simp only
    split
    · simp only [List.mem_singleton]
      exact key _ (by omega) (by omega)
    split
    · simp only [List.mem_cons, List.not_mem_nil, or_false, not_or]
      exact ⟨key _ (by omega) (by omega), key _ (by omega) (by omega)⟩
    split
    · simp only [List.mem_cons, List.not_mem_nil, or_false, not_or]
      exact ⟨key _ (by omega) (by omega), key _ (by omega) (by omega),
        key _ (by omega) (by omega)⟩
    · simp only [List.mem_cons, List.not_mem_nil, or_false, not_or]
      exact ⟨key _ (by omega) (by omega), key _ (by omega) (by omega),
        key _ (by omega) (by omega), key _ (by omega) (by omega)⟩

/-! ## Text as characters -/

/-- The characters of a UTF-8 text, if it is one. -/
def decodeUtf8 (b : Bytes) : Option (List Char) := b.toByteArray.utf8Decode?.map Array.toList

theorem decodeUtf8_flatMap (cs : List Char) :
    decodeUtf8 (cs.flatMap String.utf8EncodeChar) = some cs := by
  have : (cs.flatMap String.utf8EncodeChar).toByteArray = cs.utf8Encode := rfl
  unfold decodeUtf8
  rw [this, List.utf8Decode?_utf8Encode]
  rfl

/-- Only the encoding of a text decodes to it. -/
theorem decodeUtf8_eq_some_iff {b : Bytes} {cs : List Char} :
    decodeUtf8 b = some cs ↔ b = cs.flatMap String.utf8EncodeChar := by
  refine ⟨fun h => ?_, fun h => h ▸ decodeUtf8_flatMap cs⟩
  obtain ⟨chars, hchars, rfl⟩ := Option.map_eq_some_iff.1 h
  have hsome : b.toByteArray.utf8Decode?.isSome = true := by rw [hchars]; rfl
  have hencode := ByteArray.utf8Encode_get_utf8Decode? (b := b.toByteArray) (h := hsome)
  simp only [hchars, Option.get_some, List.utf8Encode] at hencode
  simpa using congrArg (fun bytes => bytes.data.toList) hencode.symm

/-- Compact text is UTF-8. -/
theorem spelled_utf8 : Spelled fun b => ∃ cs : List Char, b = cs.flatMap String.utf8EncodeChar where
  nil := ⟨[], rfl⟩
  append := by
    rintro _ _ ⟨cs, rfl⟩ ⟨ds, rfl⟩
    exact ⟨cs ++ ds, by rw [List.flatMap_append]⟩
  char c _ := ⟨[c], by simp⟩

/-- A decimal number reads back as its digits. -/
theorem decodeUtf8_decimalNat (n : Nat) : decodeUtf8 (decimalNat n) = some (Nat.toDigits 10 n) := by
  have : decimalNat n = (Nat.toDigits 10 n).flatMap String.utf8EncodeChar := by
    unfold decimalNat
    rw [List.map_eq_flatMap]
    refine List.flatMap_congr fun c hc => ?_
    have hd := Nat.isDigit_of_mem_toDigits (by decide) (by decide) hc
    simp only [Char.isDigit, Bool.and_eq_true, decide_eq_true_eq, ge_iff_le] at hd
    have h2 : c.toNat ≤ 57 := hd.2
    have hv : c.val.toNat ≤ 127 := by
      change c.toNat ≤ 127
      omega
    unfold String.utf8EncodeChar
    simp only [hv, ↓reduceIte]
    rfl
  rw [this, decodeUtf8_flatMap]

/-! ## Widths of decimal numbers -/

theorem length_decimalNat_pos (n : Nat) : 0 < (decimalNat n).length := by
  unfold decimalNat
  rw [List.length_map]
  exact Nat.length_toDigits_pos

theorem length_decimalNat_le {n k : Nat} (hk : 0 < k) (h : n < 10 ^ k) :
    (decimalNat n).length ≤ k := by
  unfold decimalNat
  rw [List.length_map]
  exact (Nat.length_toDigits_le_iff (by decide) hk).2 h

/-- A signed 64-bit value is written with one to twenty characters. -/
theorem length_decimal_int64 (i : Int64) :
    1 ≤ (decimal i.toInt).length ∧ (decimal i.toInt).length ≤ 20 := by
  have hlo : -2 ^ 63 ≤ i.toInt := i.le_toInt
  have hhi : i.toInt < 2 ^ 63 := i.toInt_lt
  have hw : (decimalNat i.toInt.natAbs).length ≤ 19 :=
    length_decimalNat_le (by decide) (by omega)
  have hp := length_decimalNat_pos i.toInt.natAbs
  unfold decimal
  split
  · simp only [List.length_cons]; omega
  · omega

end JsonText
