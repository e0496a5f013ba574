import Comenq.Lib.JsonText

/-!
# Reading JSON text back

Readers for the text `JsonText` writes. A `Reader` consumes a prefix of its input; each reader below
returns what the writer was given, whatever follows (`string_quote`, `integer_decimal`, and so on).
A number has to be followed by something that is not a digit.

The readers accept some text no writer produces; a caller that wants exactly the written texts
compares the input with what the value is written as.
-/

namespace JsonText

/-- A reader takes a value off the front of the input. -/
abbrev Reader (α : Type) := StateT Bytes Option α

namespace Reader

/-- Read one piece, then the rest. -/
theorem step {α β : Type} {p : Reader α} {f : α → Reader β} {xs ys : Bytes} {a : α}
    {o : Option (β × Bytes)} (h : p xs = some (a, ys)) (h' : f a ys = o) : (p >>= f) xs = o := by
  change StateT.bind p f xs = _
  unfold StateT.bind
  rw [h]
  exact h'

/-! ## Fixed text -/

/-- Take the given bytes off the input. -/
def literal (bs : Bytes) : Reader Unit := fun xs =>
  if bs.isPrefixOf xs then some ((), xs.drop bs.length) else none

theorem literal_append (bs xs : Bytes) : literal bs (bs ++ xs) = some ((), xs) := by
  unfold literal
  rw [if_pos (List.isPrefixOf_iff_prefix.2 (List.prefix_append bs xs)), List.drop_left]

/-- A text that starts differently is refused. -/
theorem literal_of_ne {bs cs : Bytes} (h₁ : bs.isPrefixOf cs = false)
    (h₂ : cs.isPrefixOf bs = false) (xs : Bytes) : literal bs (cs ++ xs) = none := by
  unfold literal
  rw [if_neg]
  intro h
  have hp := List.isPrefixOf_iff_prefix.1 h
  rcases List.prefix_or_prefix_of_prefix hp (List.prefix_append cs xs) with hb | hc
  · rw [List.isPrefixOf_iff_prefix.2 hb] at h₁
    cases h₁
  · rw [List.isPrefixOf_iff_prefix.2 hc] at h₂
    cases h₂

/-- Take one byte off the input. -/
def byte (b : UInt8) : Reader Unit
  | [] => none
  | x :: xs => if x = b then some ((), xs) else none

theorem byte_cons (b : UInt8) (xs : Bytes) : byte b (b :: xs) = some ((), xs) := if_pos rfl

/-! ## Numbers -/

def isDigitByte (b : UInt8) : Bool := 48 ≤ b.toNat && b.toNat ≤ 57

/-- What follows a number does not continue it. -/
def Ends (xs : Bytes) : Prop := ∀ b ∈ xs.head?, isDigitByte b = false

theorem ends_cons {b : UInt8} (h : isDigitByte b = false) (xs : Bytes) : Ends (b :: xs) := by
  intro c hc
  obtain rfl : b = c := by simpa using hc
  exact h

/-- Continue a number with the digits of the input. -/
def digits (acc : Nat) : Bytes → Nat × Bytes
  | [] => (acc, [])
  | b :: xs => if isDigitByte b then digits (10 * acc + (b.toNat - 48)) xs else (acc, b :: xs)

def natural : Reader Nat
  | [] => none
  | b :: xs => if isDigitByte b then some (digits 0 (b :: xs)) else none

theorem digits_append (acc : Nat) {cs : List Char} (hcs : ∀ c ∈ cs, c.isDigit = true) {xs : Bytes}
    (hx : Ends xs) :
    digits acc (cs.map (fun c => UInt8.ofNat c.toNat) ++ xs) =
      (cs.foldl (fun n c => 10 * n + (c.toNat - 48)) acc, xs) := by
  induction cs generalizing acc with
  | nil =>
    cases xs with
    | nil => rfl
    | cons b xs =>
      have hb : isDigitByte b = false := hx b (by simp)
      simp [digits, hb]
  | cons c cs ih =>
    have hc := hcs c List.mem_cons_self
    simp only [Char.isDigit, Bool.and_eq_true, decide_eq_true_eq, ge_iff_le] at hc
    have h1 : 48 ≤ c.toNat := hc.1
    have h2 : c.toNat ≤ 57 := hc.2
    have hn : (UInt8.ofNat c.toNat).toNat = c.toNat := by
      rw [UInt8.toNat_ofNat']
      omega
    have hd : isDigitByte (UInt8.ofNat c.toNat) = true := by
      unfold isDigitByte
      rw [hn]
      simp [h1, h2]
    simp only [List.map_cons, List.cons_append, digits, hd, if_true, hn, List.foldl_cons]
    exact ih _ fun d hd => hcs d (List.mem_cons_of_mem c hd)

theorem foldl_toDigits (n : Nat) :
    (Nat.toDigits 10 n).foldl (fun n c => 10 * n + (c.toNat - 48)) 0 = n := by
  have key : ∀ d, d < 10 → (d.digitChar).toNat - 48 = d := by decide
  induction n using Nat.strongRecOn with
  | ind n ih =>
    by_cases h : n < 10
    · rw [Nat.toDigits_of_lt_base h]
      simp [key n h]
    · rw [Nat.toDigits_of_base_le (by decide) (by omega), List.foldl_append, ih (n / 10) (by omega)]
      simp only [List.foldl_cons, List.foldl_nil]
      rw [key _ (Nat.mod_lt n (by decide))]
      omega

theorem decimalNat_cons (n : Nat) : ∃ b ys, decimalNat n = b :: ys ∧ isDigitByte b = true := by
  unfold decimalNat
  cases hc : Nat.toDigits 10 n with
  | nil => exact absurd hc Nat.toDigits_ne_nil
  | cons c cs =>
    refine ⟨_, _, rfl, ?_⟩
    have hcd : c.isDigit = true :=
      Nat.isDigit_of_mem_toDigits (by decide) (by decide) (hc ▸ List.mem_cons_self)
    simp only [Char.isDigit, Bool.and_eq_true, decide_eq_true_eq, ge_iff_le] at hcd
    have h1 : 48 ≤ c.toNat := hcd.1
    have h2 : c.toNat ≤ 57 := hcd.2
    unfold isDigitByte
    simp only [Bool.and_eq_true, decide_eq_true_eq, UInt8.toNat_ofNat']
    omega

theorem natural_decimalNat (n : Nat) {xs : Bytes} (hx : Ends xs) :
    natural (decimalNat n ++ xs) = some (n, xs) := by
  have hd : ∀ c ∈ Nat.toDigits 10 n, c.isDigit = true := fun c hc =>
    Nat.isDigit_of_mem_toDigits (by decide) (by decide) hc
  have hall := digits_append 0 hd hx
  rw [foldl_toDigits] at hall
  change digits 0 (decimalNat n ++ xs) = (n, xs) at hall
  obtain ⟨b, ys, hb, hdig⟩ := decimalNat_cons n
  rw [hb, List.cons_append] at hall ⊢
  simp only [natural, hdig, if_true, hall]

def integer : Reader Int
  | 45 :: xs => (natural xs).map fun r => (-(r.1 : Int), r.2)
  | xs => (natural xs).map fun r => ((r.1 : Int), r.2)

theorem integer_decimal (i : Int) {xs : Bytes} (hx : Ends xs) :
    integer (decimal i ++ xs) = some (i, xs) := by
  unfold decimal
  split
  · next h =>
    simp only [List.cons_append, integer, natural_decimalNat _ hx, Option.map_some]
    congr 2
    omega
  · next h =>
    have hn := natural_decimalNat i.natAbs hx
    unfold integer
    split
    · next ys hy =>
      have h45 : isDigitByte 45 = false := by decide
      rw [hy] at hn
      simp only [natural, h45, Bool.false_eq_true, if_false] at hn
      cases hn
    · rw [hn]
      simp only [Option.map_some]
      congr 2
      omega

/-! ## Strings -/

/-- The character whose UTF-8 encoding the input starts with. -/
def utf8Char : Bytes → Option (Char × Bytes)
  | [] => none
  | a :: xs =>
    if a.toNat < 128 then some (Char.ofNat a.toNat, xs)
    else
      match xs with
      | [] => none
      | b :: xs =>
        if a.toNat < 224 then some (Char.ofNat ((a.toNat - 192) * 64 + (b.toNat - 128)), xs)
        else
          match xs with
          | [] => none
          | c :: xs =>
            if a.toNat < 240 then
              some
                (Char.ofNat ((a.toNat - 224) * 4096 + (b.toNat - 128) * 64 + (c.toNat - 128)), xs)
            else
              match xs with
              | [] => none
              | d :: xs =>
                some (Char.ofNat ((a.toNat - 240) * 262144 + (b.toNat - 128) * 4096 +
                  (c.toNat - 128) * 64 + (d.toNat - 128)), xs)

theorem utf8Char_encode (c : Char) (xs : Bytes) :
    utf8Char (String.utf8EncodeChar c ++ xs) = some (c, xs) := by
  have hv : c.val.toNat = c.toNat := rfl
  have hmax : c.toNat < 1114112 := by
    have := c.valid
    unfold UInt32.isValidChar Nat.isValidChar at this
    omega
  have hof : ∀ n, n = c.toNat → Char.ofNat n = c := by
    rintro n rfl
    exact Char.ofNat_toNat c
  unfold String.utf8EncodeChar
  simp only [hv]
  split
  · next h =>
    simp only [List.cons_append, List.nil_append, utf8Char, UInt8.toNat_ofNat']
    rw [if_pos (by omega), hof _ (by omega)]
  · split
    · next h =>
      simp only [List.cons_append, List.nil_append, utf8Char, UInt8.toNat_ofNat']
      rw [if_neg (by omega), if_pos (by omega), hof _ (by omega)]
    · split
      · next h =>
        simp only [List.cons_append, List.nil_append, utf8Char, UInt8.toNat_ofNat']
        rw [if_neg (by omega), if_neg (by omega), if_pos (by omega), hof _ (by omega)]
      · next h =>
        simp only [List.cons_append, List.nil_append, utf8Char, UInt8.toNat_ofNat']
        rw [if_neg (by omega), if_neg (by omega), if_neg (by omega), hof _ (by omega)]

def hexValue (b : UInt8) : Nat := if b.toNat < 58 then b.toNat - 48 else b.toNat - 87

theorem hexValue_hexDigit : ∀ n, n < 16 → hexValue (hexDigit n) = n := by decide

/-- The character after a backslash. -/
def escaped : Bytes → Option (Char × Bytes)
  | 34 :: xs => some (Char.ofNat 34, xs)
  | 92 :: xs => some (Char.ofNat 92, xs)
  | 98 :: xs => some (Char.ofNat 8, xs)
  | 116 :: xs => some (Char.ofNat 9, xs)
  | 110 :: xs => some (Char.ofNat 10, xs)
  | 102 :: xs => some (Char.ofNat 12, xs)
  | 114 :: xs => some (Char.ofNat 13, xs)
  | 117 :: 48 :: 48 :: a :: b :: xs => some (Char.ofNat (16 * hexValue a + hexValue b), xs)
  | _ => none

/-- One character of a quoted string; a control character has to be escaped. -/
def quotedChar : Bytes → Option (Char × Bytes)
  | 92 :: xs => escaped xs
  | xs => (utf8Char xs).filter fun r => 32 ≤ r.1.toNat && (String.utf8EncodeChar r.1).isPrefixOf xs

theorem quotedChar_encode {c : Char} (hc : c.toNat ≠ 92) (hcontrol : 32 ≤ c.toNat) (xs : Bytes) :
    quotedChar (String.utf8EncodeChar c ++ xs) = some (c, xs) := by
  have hd := utf8Char_encode c xs
  unfold quotedChar
  split
  · next ys hy =>
    -- only the backslash itself is encoded with a leading backslash byte
    rw [hy] at hd
    simp only [utf8Char] at hd
    rw [if_pos (by decide)] at hd
    obtain ⟨rfl, -⟩ : Char.ofNat (92 : UInt8).toNat = c ∧ ys = xs := by simpa using hd
    exact absurd rfl hc
  · rw [hd, Option.filter_some, if_pos]
    rw [Bool.and_eq_true]
    exact ⟨decide_eq_true hcontrol, List.isPrefixOf_iff_prefix.2 (List.prefix_append _ _)⟩

theorem quotedChar_escapeChar (c : Char) (xs : Bytes) :
    quotedChar (escapeChar c ++ xs) = some (c, xs) := by
  have hof : ∀ n, c.toNat = n → Char.ofNat n = c := by
    rintro n rfl
    exact Char.ofNat_toNat c
  unfold escapeChar
  split
  · next h => simp only [List.cons_append, List.nil_append, quotedChar, escaped, hof _ h]
  split
  · next h => simp only [List.cons_append, List.nil_append, quotedChar, escaped, hof _ h]
  split
  · next h => simp only [List.cons_append, List.nil_append, quotedChar, escaped, hof _ h]
  split
  · next h => simp only [List.cons_append, List.nil_append, quotedChar, escaped, hof _ h]
  split
  · next h => simp only [List.cons_append, List.nil_append, quotedChar, escaped, hof _ h]
  split
  · next h => simp only [List.cons_append, List.nil_append, quotedChar, escaped, hof _ h]
  split
  · next h => simp only [List.cons_append, List.nil_append, quotedChar, escaped, hof _ h]
  split
  · next h =>
    simp only [List.cons_append, List.nil_append, quotedChar, escaped,
      hexValue_hexDigit _ (show c.toNat / 16 < 16 by omega),
      hexValue_hexDigit _ (show c.toNat % 16 < 16 by omega)]
    rw [hof _ (by omega)]
  · next h => exact quotedChar_encode (by assumption) (Nat.not_lt.1 h) xs

/-- The characters up to the closing quote; `fuel` bounds their number. -/
def quotedChars : Nat → Bytes → Option (List Char × Bytes)
  | 0, _ => none
  | fuel + 1, xs =>
    if xs.head? = some 34 then some ([], xs.tail)
    else
      match quotedChar xs with
      | none => none
      | some (c, xs) => (quotedChars fuel xs).map fun r => (c :: r.1, r.2)

/-- A quoted string. -/
def string : Reader String
  | 34 :: xs => (quotedChars (xs.length + 1) xs).map fun r => (String.ofList r.1, r.2)
  | _ => none

/-- No character of a quoted string starts with the closing quote. -/
theorem escapeChar_head (c : Char) (xs : Bytes) : (escapeChar c ++ xs).head? ≠ some 34 := by
  intro h
  obtain ⟨ys, hy⟩ : ∃ ys, escapeChar c ++ xs = 34 :: ys := by
    cases he : escapeChar c ++ xs with
    | nil => rw [he] at h; cases h
    | cons b ys =>
      rw [he] at h
      obtain rfl : b = 34 := by simpa using h
      exact ⟨ys, rfl⟩
  have hq := quotedChar_escapeChar c xs
  rw [hy] at hq
  have hread : quotedChar (34 :: ys) = some (Char.ofNat 34, ys) := rfl
  rw [hread] at hq
  obtain ⟨rfl, -⟩ : Char.ofNat 34 = c ∧ ys = xs := by simpa using hq
  have hesc : escapeChar (Char.ofNat 34) = [92, 34] := by decide
  rw [hesc] at hy
  exact absurd (List.cons.inj hy).1 (by decide)

theorem quotedChars_flatMap (cs : List Char) (xs : Bytes) {fuel : Nat} (hf : cs.length < fuel) :
    quotedChars fuel (cs.flatMap escapeChar ++ 34 :: xs) = some (cs, xs) := by
  induction cs generalizing fuel with
  | nil =>
    cases fuel with
    | zero => cases hf
    | succ fuel => rfl
  | cons c cs ih =>
    cases fuel with
    | zero => cases hf
    | succ fuel =>
      rw [List.flatMap_cons, List.append_assoc]
      unfold quotedChars
      rw [if_neg (escapeChar_head c _), quotedChar_escapeChar]
      simp only [ih (Nat.lt_of_succ_lt_succ hf), Option.map_some]

theorem length_le_flatMap_escapeChar (cs : List Char) :
    cs.length ≤ (cs.flatMap escapeChar).length := by
  induction cs with
  | nil => exact Nat.le_refl _
  | cons c cs ih =>
    have hpos : 0 < (escapeChar c).length := by
      cases he : escapeChar c with
      | nil =>
        have hq := quotedChar_escapeChar c []
        rw [he] at hq
        cases hq
      | cons b bs => exact Nat.succ_pos _
    rw [List.flatMap_cons, List.length_append, List.length_cons]
    omega

theorem string_quote (s : String) (xs : Bytes) : string (quote s ++ xs) = some (s, xs) := by
  have hq : quote s ++ xs = 34 :: (s.toList.flatMap escapeChar ++ 34 :: xs) := by
    unfold quote
    rw [List.cons_append, List.append_assoc, List.singleton_append]
  have hlen := length_le_flatMap_escapeChar s.toList
  have hchars := quotedChars_flatMap s.toList xs
    (show s.toList.length < (s.toList.flatMap escapeChar ++ 34 :: xs).length + 1 by
      rw [List.length_append]; omega)
  rw [hq]
  simp only [string, hchars, Option.map_some, String.ofList_toList]

/-! ## Alternatives -/

def boolean : Reader Bool := fun xs =>
  match literal (ascii "true") xs with
  | some (_, xs) => some (true, xs)
  | none => (literal (ascii "false") xs).map fun r => (false, r.2)

theorem boolean_bool (b : Bool) (xs : Bytes) : boolean (bool b ++ xs) = some (b, xs) := by
  unfold boolean bool
  cases b with
  | true => rw [if_pos rfl, literal_append]
  | false =>
    rw [if_neg Bool.false_ne_true, literal_of_ne (by decide) (by decide), literal_append]
    rfl

/-- A value, or `null`. -/
def nullable {α : Type} (p : Reader α) : Reader (Option α) := fun xs =>
  match literal (ascii "null") xs with
  | some (_, xs) => some (none, xs)
  | none => (p xs).map fun r => (some r.1, r.2)

theorem nullable_none {α : Type} (p : Reader α) (xs : Bytes) :
    nullable p (orNull none ++ xs) = some (none, xs) := by
  unfold nullable orNull
  rw [literal_append]

/-- A value that does not start like `null` is read as it is. -/
theorem nullable_some {α : Type} {p : Reader α} {a : α} {v xs : Bytes}
    (hp : p (v ++ xs) = some (a, xs)) (hv : v.head? ≠ some 110) (hne : v ≠ []) :
    nullable p (orNull (some v) ++ xs) = some (some a, xs) := by
  have hnull : literal (ascii "null") (v ++ xs) = none := by
    cases v with
    | nil => exact absurd rfl hne
    | cons b bs =>
      have hb : b ≠ 110 := fun h => hv (by rw [h]; rfl)
      unfold literal
      rw [if_neg]
      intro h
      have hp := List.isPrefixOf_iff_prefix.1 h
      have hn : ascii "null" = 110 :: ascii "ull" := by decide
      rw [hn, List.cons_append, List.cons_prefix_cons] at hp
      exact hb hp.1.symm
  unfold nullable orNull
  rw [hnull, hp]
  rfl

/-- A member that may be missing, with the comma before it. -/
def optional {α : Type} (text : Bytes) (p : Reader α) : Reader (Option α) := fun xs =>
  match literal text xs with
  | some (_, xs) => (p xs).map fun r => (some r.1, r.2)
  | none => some (none, xs)

theorem optional_some {α : Type} (text : Bytes) {xs : Bytes} {p : Reader α} {a : α} {v : Bytes}
    (hp : p (v ++ xs) = some (a, xs)) :
    optional text p (text ++ (v ++ xs)) = some (some a, xs) := by
  simp only [optional, literal_append, hp, Option.map_some]

theorem optional_none {α : Type} (text next : Bytes) (p : Reader α)
    (h₁ : text.isPrefixOf next = false) (h₂ : next.isPrefixOf text = false) (xs : Bytes) :
    optional text p (next ++ xs) = some (none, next ++ xs) := by
  unfold optional
  rw [literal_of_ne h₁ h₂]

/-! ## Objects with optional members -/

/-- The members behind the first one, each with the comma before it. -/
def further (ms : Members) : Bytes := ms.flatMap fun m => 44 :: (quote m.1 ++ 58 :: m.2)

theorem further_cons (k : String) (v : Bytes) (ms : Members) :
    further ((k, v) :: ms) = 44 :: (quote k ++ 58 :: (v ++ further ms)) := by
  simp [further]

theorem further_nil : further [] = [] := rfl

/-- The text of an object, member by member. -/
theorem object_cons (k : String) (v : Bytes) (ms : Members) :
    object ((k, v) :: ms) = 123 :: (quote k ++ 58 :: (v ++ (further ms ++ [125]))) := by
  have hmembers : ∀ (k : String) (v : Bytes) (ms : Members), List.intercalate [44]
      (((k, v) :: ms).map fun m => quote m.1 ++ 58 :: m.2) =
      quote k ++ 58 :: (v ++ further ms) := by
    intro k v ms
    induction ms generalizing k v with
    | nil => simp [further_nil]
    | cons m ms ih =>
      obtain ⟨k', v'⟩ := m
      have ih := ih k' v'
      simp only [List.map_cons] at ih ⊢
      rw [List.intercalate_cons_cons, ih, further_cons]
      simp
  unfold object
  rw [hmembers]
  simp

/-- A number is not continued by the rest of an object. -/
theorem ends_further (ms : Members) (xs : Bytes) : Ends (further ms ++ 125 :: xs) := by
  cases ms with
  | nil => exact ends_cons (by decide) xs
  | cons m ms =>
    rw [further_cons, List.cons_append]
    exact ends_cons (by decide) _

/-- A key that is not among the members is not read. -/
theorem optional_absent {α : Type} {k : String} {ms : Members} (h : ∀ m ∈ ms, m.1 ≠ k)
    (p : Reader α) (xs : Bytes) :
    optional (44 :: (quote k ++ [58])) p (further ms ++ 125 :: xs) =
      some (none, further ms ++ 125 :: xs) := by
  have hnone : literal (44 :: (quote k ++ [58])) (further ms ++ 125 :: xs) = none := by
    unfold literal
    rw [if_neg]
    intro hp
    obtain ⟨ys, hys⟩ := List.isPrefixOf_iff_prefix.1 hp
    cases ms with
    | nil =>
      rw [further_nil, List.nil_append, List.cons_append] at hys
      exact absurd (List.cons.inj hys).1 (by decide)
    | cons m ms =>
      rw [further_cons, List.cons_append, List.cons_append, List.append_assoc,
        List.append_assoc] at hys
      have hread := congrArg Reader.string (List.cons.inj hys).2
      rw [string_quote, string_quote] at hread
      exact h m List.mem_cons_self (Prod.mk.inj (Option.some.inj hread)).1.symm
  unfold optional
  rw [hnone]

/-- An optional member is read back, whichever members follow. -/
theorem optional_member {α : Type} {k : String} {f : α → Bytes} {p : Reader α} {ms : Members}
    {xs : Bytes} (a : Option α) (h : ∀ m ∈ ms, m.1 ≠ k)
    (hp : ∀ a, p (f a ++ (further ms ++ 125 :: xs)) = some (a, further ms ++ 125 :: xs)) :
    optional (44 :: (quote k ++ [58])) p
      (further (((a.map f).map fun v => (k, v)).toList ++ ms) ++ 125 :: xs) =
      some (a, further ms ++ 125 :: xs) := by
  cases a with
  | none => exact optional_absent h p xs
  | some a =>
    have hsome := optional_some (44 :: (quote k ++ [58])) (hp a)
    simp only [Option.map_some, Option.toList_some, List.singleton_append, further_cons]
    simpa only [List.cons_append, List.append_assoc, List.nil_append] using hsome

/-! ## Arrays -/

/-- The elements of an array up to its bracket. -/
def elements {α : Type} (p : Reader α) : Nat → Reader (List α)
  | 0 => fun _ => none
  | n + 1 => do
    let a ← p
    let more ← optional [44] (elements p n)
    if more.isNone then byte 93
    pure (a :: more.getD [])

/-- An array; the length of the text bounds the number of its elements. -/
def arrayOf {α : Type} (p : Reader α) : Reader (List α) := fun xs =>
  if [91, 93].isPrefixOf xs then some ([], xs.drop 2)
  else (do byte 91; elements p xs.length) xs

theorem elements_intercalate {α : Type} {p : Reader α} {f : α → Bytes}
    (hp : ∀ a xs, p (f a ++ xs) = some (a, xs)) (as : List α) :
    ∀ {a : α} {n : Nat} {xs : Bytes}, as.length < n →
      elements p n (List.intercalate [44] ((a :: as).map f) ++ 93 :: xs) = some (a :: as, xs) := by
  induction as with
  | nil =>
    intro a n xs hn
    cases n with
    | zero => exact absurd hn (Nat.lt_irrefl 0)
    | succ n =>
      have hmore : optional [44] (elements p n) (93 :: xs) = some (none, 93 :: xs) :=
        optional_none [44] [93] _ (by decide) (by decide) xs
      rw [List.map_singleton, List.intercalate_singleton]
      exact step (hp a _) (step hmore (step (byte_cons 93 xs) rfl))
  | cons b as ih =>
    intro a n xs hn
    cases n with
    | zero => exact absurd hn (Nat.not_lt_zero _)
    | succ n =>
      have hrest : elements p n (List.intercalate [44] ((b :: as).map f) ++ [93] ++ xs) =
          some (b :: as, xs) := by
        rw [List.append_assoc]
        exact ih (Nat.lt_of_succ_lt_succ hn)
      have hmore := optional_some [44] hrest
      rw [List.map_cons, List.map_cons, List.intercalate_cons_cons, ← List.map_cons]
      simp only [List.append_assoc, List.singleton_append] at hmore ⊢
      exact step (hp a _) (step hmore rfl)

theorem length_le_intercalate (v : Bytes) (vs : List Bytes) :
    vs.length ≤ (List.intercalate [44] (v :: vs)).length := by
  induction vs generalizing v with
  | nil => exact Nat.zero_le _
  | cons w vs ih =>
    have := ih w
    rw [List.intercalate_cons_cons, List.length_append, List.length_append, List.length_singleton,
      List.length_cons]
    omega

/-- An array is read back; its elements are not empty and start unlike a bracket. -/
theorem arrayOf_array {α : Type} {p : Reader α} {f : α → Bytes}
    (hp : ∀ a xs, p (f a ++ xs) = some (a, xs)) (hf : ∀ a, (f a).head? = some 123) (as : List α)
    (xs : Bytes) : arrayOf p (array (as.map f) ++ xs) = some (as, xs) := by
  unfold arrayOf array
  cases as with
  | nil => rfl
  | cons a as =>
    obtain ⟨bs, hbs⟩ := List.head?_eq_some_iff.1 (hf a)
    obtain ⟨cs, hcs⟩ : ∃ cs, List.intercalate [44] ((a :: as).map f) = 123 :: cs := by
      cases as with
      | nil => exact ⟨bs, by rw [List.map_singleton, List.intercalate_singleton, hbs]⟩
      | cons b as =>
        rw [List.map_cons, List.map_cons, List.intercalate_cons_cons, hbs]
        simp only [List.cons_append]
        exact ⟨_, rfl⟩
    have hlength := length_le_intercalate (f a) (as.map f)
    rw [List.length_map, ← List.map_cons] at hlength
    simp only [List.cons_append, List.append_assoc]
    rw [if_neg (by rw [hcs]; simp)]
    refine step (byte_cons 91 _) (elements_intercalate hp as ?_)
    simp only [List.length_cons, List.length_append]
    omega

/-! ## What readers take off the input -/

/-- The reader takes at least as much off the input as `size` says of what it reads. -/
def Takes {α : Type} (p : Reader α) (size : α → Nat) : Prop :=
  ∀ (xs ys : Bytes) (a : α), p xs = some (a, ys) → size a + ys.length ≤ xs.length

section Takes

variable {α β : Type} {p : Reader α} {f : α → Reader β} {size : α → Nat} {total : β → Nat}

theorem Takes.mono {less : α → Nat} (h : Takes p size) (hle : ∀ a, less a ≤ size a) :
    Takes p less := by
  intro xs ys a hread
  have := h xs ys a hread
  have := hle a
  omega

/-- The rest has to take what the first piece did not. -/
theorem Takes.bind (hp : Takes p size) (hf : ∀ a, Takes (f a) fun b => total b - size a) :
    Takes (p >>= f) total := by
  intro xs zs b hread
  change StateT.bind p f xs = _ at hread
  unfold StateT.bind at hread
  obtain ⟨⟨a, ys⟩, hfirst, hrest⟩ := Option.bind_eq_some_iff.1 hread
  have hfirst := hp xs ys a hfirst
  have hrest := hf a ys zs b hrest
  simp only at hrest
  omega

/-- A piece whose size does not matter. -/
theorem Takes.skip (hp : Takes p size) (hf : ∀ a, Takes (f a) total) : Takes (p >>= f) total :=
  (hp.mono fun _ => Nat.zero_le _).bind hf

theorem takes_pure {a : α} (h : size a = 0) : Takes (pure a) size := by
  intro xs ys b hread
  obtain ⟨rfl, rfl⟩ := Prod.mk.inj (Option.some.inj hread)
  rw [h, Nat.zero_add]

theorem takes_literal (bs : Bytes) : Takes (literal bs) fun _ => bs.length := by
  intro xs ys a hread
  unfold literal at hread
  split at hread
  · next hprefix =>
    obtain ⟨-, rfl⟩ := Prod.mk.inj (Option.some.inj hread)
    have := (List.isPrefixOf_iff_prefix.1 hprefix).length_le
    simp only [List.length_drop]
    omega
  · cases hread

theorem takes_byte (b : UInt8) : Takes (byte b) fun _ => 1 := by
  intro xs ys a hread
  cases xs with
  | nil => cases hread
  | cons x xs =>
    simp only [byte] at hread
    split at hread
    · obtain ⟨-, rfl⟩ := Prod.mk.inj (Option.some.inj hread)
      simp only [List.length_cons]
      omega
    · cases hread

theorem length_digits_le (acc : Nat) (xs : Bytes) : (digits acc xs).2.length ≤ xs.length := by
  induction xs generalizing acc with
  | nil => exact Nat.le_refl _
  | cons x xs ih =>
    unfold digits
    split
    · exact (ih _).trans (Nat.le_succ _)
    · exact Nat.le_refl _

theorem takes_natural : Takes natural fun _ => 0 := by
  intro xs ys n hread
  cases xs with
  | nil => cases hread
  | cons x xs =>
    simp only [natural] at hread
    split at hread
    · have hdigits := length_digits_le 0 (x :: xs)
      rw [Option.some.inj hread] at hdigits
      rw [Nat.zero_add]
      exact hdigits
    · cases hread

theorem takes_boolean : Takes boolean fun _ => 0 := by
  intro xs ys b hread
  unfold boolean at hread
  split at hread
  · next htrue =>
    obtain ⟨-, rfl⟩ := Prod.mk.inj (Option.some.inj hread)
    have := takes_literal _ _ _ _ htrue
    simp only at this ⊢
    omega
  · obtain ⟨r, hfalse, hr⟩ := Option.map_eq_some_iff.1 hread
    obtain ⟨-, rfl⟩ := Prod.mk.inj hr
    have := takes_literal _ _ _ _ hfalse
    simp only at this ⊢
    omega

theorem takes_nullable (hp : Takes p size) : Takes (nullable p) fun _ => 0 := by
  intro xs ys a hread
  unfold nullable at hread
  split at hread
  · next hnull =>
    obtain ⟨-, rfl⟩ := Prod.mk.inj (Option.some.inj hread)
    have := takes_literal _ _ _ _ hnull
    simp only at this ⊢
    omega
  · obtain ⟨r, hvalue, hr⟩ := Option.map_eq_some_iff.1 hread
    obtain ⟨-, rfl⟩ := Prod.mk.inj hr
    have := hp _ _ _ hvalue
    simp only
    omega

theorem takes_optional (text : Bytes) (hp : Takes p size) : Takes (optional text p) fun _ => 0 := by
  intro xs ys a hread
  unfold optional at hread
  split at hread
  · next htext =>
    obtain ⟨r, hvalue, hr⟩ := Option.map_eq_some_iff.1 hread
    obtain ⟨-, rfl⟩ := Prod.mk.inj hr
    have := takes_literal _ _ _ _ htext
    have := hp _ _ _ hvalue
    simp only at *
    omega
  · obtain ⟨-, rfl⟩ := Prod.mk.inj (Option.some.inj hread)
    rw [Nat.zero_add]

theorem length_le_of_escaped {xs ys : Bytes} {c : Char} (h : escaped xs = some (c, ys)) :
    (escapeChar c).length + ys.length ≤ xs.length + 1 := by
  have hshort : ∀ n ∈ [34, 92, 8, 9, 10, 12, 13], (escapeChar (Char.ofNat n)).length = 2 := by
    decide
  unfold escaped at h
  split at h
  case h_8 =>
    rename_i a b zs
    obtain ⟨rfl, rfl⟩ := Prod.mk.inj (Option.some.inj h)
    have := length_escapeChar_le (Char.ofNat (16 * hexValue a + hexValue b))
    simp only [List.length_cons]
    omega
  case h_9 => cases h
  all_goals
    obtain ⟨rfl, rfl⟩ := Prod.mk.inj (Option.some.inj h)
    rw [hshort _ (by decide), List.length_cons, Nat.add_comm]

/-- No spelling of a character is shorter than the one that is written. -/
theorem length_le_of_quotedChar {xs ys : Bytes} {c : Char} (hquote : xs.head? ≠ some 34)
    (h : quotedChar xs = some (c, ys)) : (escapeChar c).length + ys.length ≤ xs.length := by
  unfold quotedChar at h
  split at h
  · exact length_le_of_escaped h
  · next hslash =>
    obtain ⟨hread, hcheck⟩ := Option.filter_eq_some_iff.1 h
    rw [Bool.and_eq_true, decide_eq_true_eq] at hcheck
    obtain ⟨hcontrol, hprefix⟩ := hcheck
    obtain ⟨zs, rfl⟩ := List.isPrefixOf_iff_prefix.1 hprefix
    rw [utf8Char_encode] at hread
    obtain ⟨-, rfl⟩ := Prod.mk.inj (Option.some.inj hread)
    -- the closing quote and the backslash would have been read as such
    have h34 : c.toNat ≠ 34 := by
      intro hc
      obtain rfl : Char.ofNat 34 = c := by rw [← hc, Char.ofNat_toNat]
      exact hquote rfl
    have h92 : c.toNat ≠ 92 := by
      intro hc
      obtain rfl : Char.ofNat 92 = c := by rw [← hc, Char.ofNat_toNat]
      exact hslash zs rfl
    have hplain : escapeChar c = String.utf8EncodeChar c := by
      unfold escapeChar
      simp only at hcontrol
      repeat rw [if_neg (by omega)]
    rw [hplain, List.length_append]

theorem length_le_of_quotedChars {fuel : Nat} {xs ys : Bytes} {cs : List Char}
    (h : quotedChars fuel xs = some (cs, ys)) :
    (cs.flatMap escapeChar).length + 1 + ys.length ≤ xs.length := by
  induction fuel generalizing xs cs with
  | zero => cases h
  | succ fuel ih =>
    unfold quotedChars at h
    split at h
    · next hquote =>
      obtain ⟨rfl, rfl⟩ := Prod.mk.inj (Option.some.inj h)
      obtain ⟨zs, rfl⟩ := List.head?_eq_some_iff.1 hquote
      simp
      omega
    · next hquote =>
      split at h
      · cases h
      · next c zs hchar =>
        obtain ⟨r, hrest, heq⟩ := Option.map_eq_some_iff.1 h
        obtain ⟨rfl, rfl⟩ := Prod.mk.inj heq
        have hfirst := length_le_of_quotedChar hquote hchar
        have hlater := ih hrest
        simp only [List.flatMap_cons, List.length_append]
        omega

theorem takes_string : Takes string fun s => (quote s).length := by
  intro xs ys s hread
  unfold string at hread
  split at hread
  · obtain ⟨⟨cs, zs⟩, hchars, heq⟩ := Option.map_eq_some_iff.1 hread
    obtain ⟨rfl, rfl⟩ := Prod.mk.inj heq
    have := length_le_of_quotedChars hchars
    simp only [quote, String.toList_ofList, List.length_cons, List.length_append, List.length_nil]
    omega
  · cases hread

end Takes

end Reader

end JsonText
