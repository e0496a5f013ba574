import Comenq.Lib.OpenAddressing
import Comenq.Store.Codec
import Comenq.Store.System
import Mathlib.Data.Nat.Bitwise

/-!
# Identifier probing ends

`resolve_entry_id` tries one salted identifier after another until one names no entry with another
request. No measure of the loop decreases; it ends because the salts reach more identifiers than a
queue directory has files. The last two bytes of a salt alone give distinct identifiers
(`topHalf_eat_inj`): from any state of the hash, the two multiplications by the prime
`2 ^ 40 + 435` spread the two bytes over the upper half of the hash without overlap.

The loop is a search along the path of a request's identifiers (`probe`) in the table of the queued
entries (`held`): it ends where that search does (`resolveFrom_path`).
-/

namespace Comenq

open JsonText OpenAddressing

/-! ## The hash of the last two bytes -/

theorem fnvEat_append (hash : UInt64) (xs ys : Bytes) :
    fnvEat hash (xs ++ ys) = fnvEat (fnvEat hash xs) ys := by
  simp [fnvEat, List.foldl_append]

/-- A byte combined into a hash changes only its lowest eight bits. -/
theorem xor_byte (h : Nat) {b : Nat} (hb : b < 256) :
    h ^^^ b = 256 * (h / 256) + (h % 256 ^^^ b) := by
  have hdiv : (h ^^^ b) / 2 ^ 8 = h / 2 ^ 8 := by
    rw [Nat.xor_div_two_pow, Nat.div_eq_of_lt hb, Nat.xor_zero]
  have hmod : (h ^^^ b) % 2 ^ 8 = h % 2 ^ 8 ^^^ b := by
    rw [Nat.xor_mod_two_pow, Nat.mod_eq_of_lt hb]
  calc h ^^^ b = 2 ^ 8 * ((h ^^^ b) / 2 ^ 8) + (h ^^^ b) % 2 ^ 8 := (Nat.div_add_mod ..).symm
    _ = 2 ^ 8 * (h / 2 ^ 8) + (h % 2 ^ 8 ^^^ b) := by rw [hdiv, hmod]

theorem toNat_eat (h : UInt64) (b : UInt8) :
    ((h ^^^ b.toUInt64) * fnvPrime).toNat =
      (256 * (h.toNat / 256) + (h.toNat % 256 ^^^ b.toNat)) * 1099511628211 % 2 ^ 64 := by
  rw [UInt64.toNat_mul, UInt64.toNat_xor, UInt8.toNat_toUInt64, xor_byte _ b.toNat_lt]
  rfl

/-- A difference of the two low bytes that moves the hash by less than its lower half is none:
`870 * 2 ^ 40 + 189225` is the square of the prime modulo `2 ^ 64`. -/
theorem rounds_spread {d w D K : Int} (hd : -256 < d ∧ d < 256) (hw : -511 < w ∧ w < 511)
    (hD : -2 ^ 32 < D ∧ D < 2 ^ 32)
    (h : D = (870 * 2 ^ 40 + 189225) * d + (2 ^ 40 + 435) * w + 2 ^ 64 * K) : d = 0 ∧ w = 0 := by
  have hK : K = 0 := by omega
  have hq : 870 * d + w = 0 := by omega
  omega

/-- Two rounds of the hash on low bytes `r` and `s`, in numbers: equal upper halves come from
equal low bytes. -/
theorem rounds_inj {H r r' s s' x x' : Nat} (hr : r < 256) (hr' : r' < 256)
    (hs : s < 256) (hs' : s' < 256)
    (hx : x = (256 * H + r) * 1099511628211 % 2 ^ 64)
    (hx' : x' = (256 * H + r') * 1099511628211 % 2 ^ 64)
    (heq : (256 * (x / 256) + s) * 1099511628211 % 2 ^ 64 / 2 ^ 32 =
      (256 * (x' / 256) + s') * 1099511628211 % 2 ^ 64 / 2 ^ 32) : r = r' ∧ s = s' := by
  obtain ⟨k, hk⟩ : ∃ k, (256 * H + r) * 1099511628211 = x + 2 ^ 64 * k :=
    ⟨_, by rw [hx]; exact (Nat.mod_add_div ..).symm⟩
  obtain ⟨k', hk'⟩ : ∃ k', (256 * H + r') * 1099511628211 = x' + 2 ^ 64 * k' :=
    ⟨_, by rw [hx']; exact (Nat.mod_add_div ..).symm⟩
  obtain ⟨F, hF⟩ : ∃ F, F = (256 * (x / 256) + s) * 1099511628211 % 2 ^ 64 := ⟨_, rfl⟩
  obtain ⟨F', hF'⟩ : ∃ F', F' = (256 * (x' / 256) + s') * 1099511628211 % 2 ^ 64 := ⟨_, rfl⟩
  obtain ⟨m, hm⟩ : ∃ m, (256 * (x / 256) + s) * 1099511628211 = F + 2 ^ 64 * m :=
    ⟨_, by rw [hF]; exact (Nat.mod_add_div ..).symm⟩
  obtain ⟨m', hm'⟩ : ∃ m', (256 * (x' / 256) + s') * 1099511628211 = F' + 2 ^ 64 * m' :=
    ⟨_, by rw [hF']; exact (Nat.mod_add_div ..).symm⟩
  rw [← hF, ← hF'] at heq
  have hsame : ((r : Int) - r' = 0) ∧
      ((s : Int) - s') - ((x % 256 : Nat) - (x' % 256 : Nat)) = 0 := by
    apply rounds_spread (D := F - F')
      (K := 65536 * ((r : Int) - r') - ((m : Int) - m') - 1099511628211 * ((k : Int) - k'))
    · omega
    · omega
    · omega
    · clear hx hx' hF hF'
      omega
  obtain ⟨hrr, hw⟩ := hsame
  obtain rfl : r = r' := by omega
  obtain rfl : x = x' := by rw [hx, hx']
  exact ⟨rfl, by omega⟩

/-- From any state of the hash, two more bytes give distinct upper halves. -/
theorem topHalf_eat_inj (h : UInt64) {a b a' b' : UInt8}
    (heq : (fnvEat h [a, b]).toNat / 2 ^ 32 = (fnvEat h [a', b']).toNat / 2 ^ 32) :
    a = a' ∧ b = b' := by
  have hlow : ∀ (n : Nat) (c : UInt8), n % 256 ^^^ c.toNat < 256 := by
    intro n c
    exact Nat.xor_lt_two_pow (n := 8) (Nat.mod_lt _ (by decide)) c.toNat_lt
  simp only [fnvEat, List.foldl_cons, List.foldl_nil] at heq
  rw [toNat_eat (_ * fnvPrime) b, toNat_eat (_ * fnvPrime) b'] at heq
  obtain ⟨hr, hs⟩ := rounds_inj (hlow _ a) (hlow _ a') (hlow _ b) (hlow _ b')
    (toNat_eat h a) (toNat_eat h a') heq
  have ha : a = a' := UInt8.toNat_inj.1 (Nat.xor_right_inj.1 hr)
  subst ha
  exact ⟨rfl, UInt8.toNat_inj.1 (Nat.xor_right_inj.1 hs)⟩

/-! ## Distinct identifiers -/

theorem hexChar_inj {m n : Nat} (hm : m < 16) (hn : n < 16) (h : hexChar m = hexChar n) :
    m = n := by
  have : ∀ m < 16, ∀ n < 16, hexChar m = hexChar n → m = n := by decide
  exact this m hm n hn h

/-- The first eight hexadecimal digits determine the upper half of a hash. -/
theorem topHalf_eq_of_digits {m n : UInt64}
    (h : String.ofList ((toHex m).take 8) = String.ofList ((toHex n).take 8)) :
    m.toNat / 2 ^ 32 = n.toNat / 2 ^ 32 := by
  have hlists : (toHex m).take 8 = (toHex n).take 8 := by
    have := congrArg String.toList h
    simpa only [String.toList_ofList] using this
  have hdigit : ∀ i < 8, m.toNat / 16 ^ (15 - i) % 16 = n.toNat / 16 ^ (15 - i) % 16 := by
    intro i hi
    have hget := congrArg (fun l => l[i]?) hlists
    simp only [toHex, List.getElem?_take, hi, if_true, List.getElem?_map,
      List.getElem?_range (show i < 16 by omega), Option.map_some, Option.some.injEq] at hget
    exact hexChar_inj (Nat.mod_lt _ (by decide)) (Nat.mod_lt _ (by decide)) hget
  -- digit by digit from the top
  have htop : ∀ i ≤ 8, m.toNat / 16 ^ (16 - i) = n.toNat / 16 ^ (16 - i) := by
    intro i hi
    induction i with
    | zero => exact (Nat.div_eq_of_lt m.toNat_lt).trans (Nat.div_eq_of_lt n.toNat_lt).symm
    | succ i ih =>
      have hpow : 16 ^ (15 - i) * 16 = 16 ^ (16 - i) := by
        rw [← Nat.pow_succ]
        congr 1
        omega
      have hsub : 16 - (i + 1) = 15 - i := by omega
      rw [hsub, ← Nat.div_add_mod (m.toNat / 16 ^ (15 - i)) 16,
        ← Nat.div_add_mod (n.toNat / 16 ^ (15 - i)) 16, Nat.div_div_eq_div_mul,
        Nat.div_div_eq_div_mul, hpow, ih (by omega), hdigit i (by omega)]
  exact htop 8 (Nat.le_refl 8)

/-- A salt whose last two bytes count up to `i`. -/
def countingSalt (i : Nat) : UInt64 :=
  UInt64.ofNat (1 + i / 256 % 256 * 2 ^ 48 + i % 256 * 2 ^ 56)

theorem toNat_countingSalt (i : Nat) :
    (countingSalt i).toNat = 1 + i / 256 % 256 * 2 ^ 48 + i % 256 * 2 ^ 56 := by
  unfold countingSalt
  rw [UInt64.toNat_ofNat']
  apply Nat.mod_eq_of_lt
  omega

theorem toLeBytes_countingSalt (i : Nat) : toLeBytes (countingSalt i) =
    [1, 0, 0, 0, 0, 0] ++ [UInt8.ofNat (i / 256), UInt8.ofNat i] := by
  have hbyte : ∀ {n b : Nat}, n % 256 = b % 256 → UInt8.ofNat n = UInt8.ofNat b := by
    intro n b h
    apply UInt8.toNat_inj.1
    rw [UInt8.toNat_ofNat', UInt8.toNat_ofNat']
    exact h
  have ha : i / 256 % 256 < 256 := Nat.mod_lt _ (by decide)
  have hb : i % 256 < 256 := Nat.mod_lt _ (by decide)
  have hlast : (1 + i / 256 % 256 * 2 ^ 48 + i % 256 * 2 ^ 56) / 256 ^ 7 = i % 256 := by omega
  simp only [toLeBytes, toNat_countingSalt, List.range_succ, List.range_zero, List.nil_append,
    List.cons_append, List.map_cons, List.map_nil, List.cons.injEq, and_true, hlast]
  refine ⟨@hbyte _ 1 ?_, @hbyte _ 0 ?_, @hbyte _ 0 ?_, @hbyte _ 0 ?_, @hbyte _ 0 ?_,
    @hbyte _ 0 ?_, hbyte ?_, hbyte (Nat.mod_mod ..)⟩ <;> omega

theorem entryIdWithSalt_inj {request : CommentRequest} {now : UInt64} {i j : Nat}
    (hi : i < 65536) (hj : j < 65536)
    (h : entryIdWithSalt request now (some (countingSalt i)) =
      entryIdWithSalt request now (some (countingSalt j))) : i = j := by
  simp only [entryIdWithSalt, toLeBytes_countingSalt, fnvEat_append] at h
  obtain ⟨ha, hb⟩ := topHalf_eat_inj _ (topHalf_eq_of_digits h)
  have ha := congrArg UInt8.toNat ha
  have hb := congrArg UInt8.toNat hb
  simp only [UInt8.toNat_ofNat'] at ha hb
  omega

/-! ## The loop -/

section Loop

variable {J : SerdeJson} {fs : QueueFs} {request : CommentRequest} {now : UInt64}

/-- A directory with at most 1024 entry files leaves a salted identifier free. -/
theorem exists_free_salt (request : CommentRequest) (now : UInt64)
    (h : fileCount fs ≤ maxQueueEntries) : ∃ salt : UInt64, 1 ≤ salt ∧ ∀ bytes,
      fs.entries.lookup (entryIdWithSalt request now (some salt)) ≠ some (.file bytes) := by
  by_contra hall
  push Not at hall
  set ids := (List.range 1025).map fun i => entryIdWithSalt request now (some (countingSalt i))
    with hids
  have hnodup : ids.Nodup := by
    apply List.Nodup.map_on _ List.nodup_range
    intro i hi j hj hij
    rw [List.mem_range] at hi hj
    exact entryIdWithSalt_inj (by omega) (by omega) hij
  have hsub : ids ⊆ (regularFiles fs.entries.entries).map EntryFile.stem := by
    intro id hid
    obtain ⟨i, -, rfl⟩ := List.mem_map.1 hid
    have hpos : 1 ≤ countingSalt i := by
      rw [UInt64.le_iff_toNat_le, toNat_countingSalt]
      exact Nat.le_add_right_of_le (Nat.le_add_right ..)
    obtain ⟨bytes, hfile⟩ := hall _ hpos
    exact List.mem_map.2 ⟨⟨_, bytes⟩,
      List.mem_filterMap.2 ⟨_, AList.mem_lookup_iff.1 hfile, rfl⟩, rfl⟩
  have hlength : ids.length ≤ fileCount fs := by
    have := (hnodup.subperm hsub).length_le
    rwa [List.length_map EntryFile.stem, length_regularFiles] at this
  rw [hids, List.length_map, List.length_range] at hlength
  unfold maxQueueEntries at h
  omega

/-- The salt tried after a collision. -/
def nextSalt (salt : Option UInt64) : Option UInt64 :=
  some (match salt with
    | none => 1
    | some value => Saturating.add value 1)

theorem iterate_nextSalt {n : Nat} (h : n + 1 < 2 ^ 64) :
    nextSalt^[n + 1] none = some (UInt64.ofNat (n + 1)) := by
  induction n with
  | zero => rfl
  | succ n ih =>
    rw [Function.iterate_succ_apply', ih (by omega)]
    simp only [nextSalt, Option.some.injEq]
    apply UInt64.toNat_inj.1
    rw [Saturating.toNat_add, UInt64.toNat_ofNat', UInt64.toNat_ofNat', Nat.mod_eq_of_lt (by omega),
      Nat.mod_eq_of_lt h]
    show min (n + 1 + 1) Saturating.maxU64 = n + 1 + 1
    unfold Saturating.maxU64
    omega

/-- A loop that uses up its attempts met an entry at each of its identifiers. -/
theorem resolveFrom_none {attempts : Nat} {salt : Option UInt64}
    (h : resolveFrom J fs request now attempts salt = none) {i : Nat} (hi : i < attempts) :
    ∃ e, find J fs (entryIdWithSalt request now (nextSalt^[i] salt)) = .ok e := by
  induction attempts generalizing salt i with
  | zero => omega
  | succ attempts ih =>
    unfold resolveFrom at h
    simp only at h
    split at h
    · next entry hfind =>
      split at h
      · cases h
      · cases i with
        | zero => exact ⟨entry, hfind⟩
        | succ i => exact ih h (Nat.lt_of_succ_lt_succ hi)
    · cases h
    · cases h

theorem file_of_find {id : String} {e : StoredEntry} (h : find J fs id = .ok e) :
    ∃ bytes, fs.entries.lookup id = some (.file bytes) := by
  obtain ⟨hmem, rfl⟩ := find_ok_iff.1 h
  obtain ⟨-, bytes, hfile, -⟩ := mem_queued.1 hmem
  exact ⟨bytes, hfile⟩

/-- The loop comes to an end before the salt saturates. -/
theorem resolveEntryId_ne_none (h : fileCount fs ≤ maxQueueEntries) :
    resolveEntryId J fs request now ≠ none := by
  intro hr
  obtain ⟨salt, hpos, hfree⟩ := exists_free_salt request now h
  obtain ⟨n, hn⟩ : ∃ n, salt.toNat = n + 1 := by
    rw [UInt64.le_iff_toNat_le] at hpos
    exact Nat.exists_eq_succ_of_ne_zero (Nat.ne_of_gt hpos)
  have hlt := salt.toNat_lt
  have hsalt : nextSalt^[n + 1] none = some salt := by
    rw [iterate_nextSalt (by omega), ← hn, UInt64.ofNat_toNat]
  obtain ⟨e, hfind⟩ := resolveFrom_none hr (i := n + 1) (by unfold saltCount; omega)
  rw [hsalt] at hfind
  obtain ⟨bytes, hfile⟩ := file_of_find hfind
  exact absurd hfile (hfree bytes)

/-! ## Where it ends -/

/-- The `i`-th identifier that is tried. -/
def probe (request : CommentRequest) (now : UInt64) (i : ℕ) : String :=
  entryIdWithSalt request now (nextSalt^[i] none)

/-- The entry an identifier names. -/
def held (J : SerdeJson) (fs : QueueFs) (id : String) : Option StoredEntry :=
  (find J fs id).toOption

theorem held_eq_some_iff {id : String} {e : StoredEntry} :
    held J fs id = some e ↔ e ∈ queued J fs ∧ e.id = id := by
  rw [← find_ok_iff]
  unfold held
  cases find J fs id <;> simp [Except.toOption]

/-- Probing comes to an identifier behind entries with other requests. -/
theorem resolveFrom_path {attempts k : ℕ} {id : String} {existing : Option StoredEntry}
    (h : resolveFrom J fs request now attempts (nextSalt^[k] none) = some (.ok (id, existing)))
    (hk : OpenAddressing.Passes (held J fs) (fun e => e.request = request) (probe request now) k) :
    ∃ i, OpenAddressing.Passes (held J fs) (fun e => e.request = request) (probe request now) i ∧
      id = probe request now i ∧ held J fs id = existing ∧ ∀ e ∈ existing, e.request = request := by
  induction attempts generalizing k with
  | zero => cases h
  | succ attempts ih =>
    unfold resolveFrom at h
    simp only at h
    split at h
    · next entry hfind =>
      have hheld : held J fs (probe request now k) = some entry := by
        unfold held probe
        rw [hfind]
        rfl
      split at h
      · next hreq =>
        simp only [Option.some.injEq, Except.ok.injEq, Prod.mk.injEq] at h
        obtain ⟨rfl, rfl⟩ := h
        exact ⟨k, hk, rfl, hheld, fun e he => Option.some.inj he ▸ hreq⟩
      · next hreq =>
        apply ih (k := k + 1) _ (hk.succ hheld hreq)
        rw [Function.iterate_succ_apply']
        exact h
    · next other hfind =>
      simp only [Option.some.injEq, Except.ok.injEq, Prod.mk.injEq] at h
      obtain ⟨rfl, rfl⟩ := h
      refine ⟨k, hk, rfl, ?_, fun e he => absurd he (Option.not_mem_none e)⟩
      unfold held
      rw [hfind]
      rfl
    · cases h

end Loop

/-- With at most 1024 entry files, probing for an identifier ends: some salt names no entry file,
and the loop returns an identifier or an error. -/
theorem probing_ends (J : SerdeJson) (fs : QueueFs) (request : CommentRequest) (now : UInt64)
    (h : fileCount fs ≤ maxQueueEntries) :
    (∃ salt : UInt64, 1 ≤ salt ∧ ∀ bytes,
      fs.entries.lookup (entryIdWithSalt request now (some salt)) ≠ some (.file bytes)) ∧
    ∃ r, resolveEntryId J fs request now = some r :=
  ⟨exists_free_salt request now h, Option.ne_none_iff_exists'.1 (resolveEntryId_ne_none h)⟩

/-- Requests that differ in their body. -/
def sampleBody (body : String) : CommentRequest := { sampleRequest with body := body }

/-- A queue after a put of one of two requests with the same unsalted identifier. -/
def sampleOccupied : QueueFs :=
  afterCalls serdeJson [.put (sampleBody "11723") ⟨900, 0, true⟩ 1000 (sampleUuid 1)]

/-- The other request finds its first identifier taken and ends at the next one. -/
theorem probing_ends_occupied :
    entryIdWithSalt (sampleBody "90017") 1000 none = "e51e3667" ∧
    ((held serdeJson sampleOccupied "e51e3667").map fun e => e.request) =
      some (sampleBody "11723") ∧
    ∃ r, resolveEntryId serdeJson sampleOccupied (sampleBody "90017") 1000 = some r ∧
      r.toOption.map Prod.fst = some (entryIdWithSalt (sampleBody "90017") 1000 (some 1)) := by
  have hfacts : fileCount sampleOccupied ≤ maxQueueEntries ∧
      entryIdWithSalt (sampleBody "90017") 1000 none = "e51e3667" ∧
      ((held serdeJson sampleOccupied "e51e3667").map fun e => e.request) =
        some (sampleBody "11723") ∧
      (resolveEntryId serdeJson sampleOccupied (sampleBody "90017") 1000).bind
        (fun r => r.toOption.map Prod.fst) =
        some (entryIdWithSalt (sampleBody "90017") 1000 (some 1)) := by decide +kernel
  obtain ⟨hcount, hid, hheld, hresolved⟩ := hfacts
  obtain ⟨-, r, hr⟩ := probing_ends serdeJson sampleOccupied (sampleBody "90017") 1000 hcount
  rw [hr] at hresolved
  exact ⟨hid, hheld, r, hr, hresolved⟩

end Comenq
