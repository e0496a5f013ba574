import Comenq.Store.Bounds

/-!
# Deterministic entry identifiers

The first eight hexadecimal digits of the 64-bit FNV-1a hash of the request and its enqueue time,
salted when the identifier already names an entry with another request.
-/

namespace Comenq

open JsonText

def fnvOffset : UInt64 := 0xcbf29ce484222325
def fnvPrime : UInt64 := 0x100000001b3

def fnvEat (hash : UInt64) (bytes : Bytes) : UInt64 :=
  bytes.foldl (fun h b => (h ^^^ b.toUInt64) * fnvPrime) hash

/-- The eight bytes of a 64-bit value, least significant first. -/
def toLeBytes (n : UInt64) : Bytes :=
  (List.range 8).map fun i => UInt8.ofNat (n.toNat / 256 ^ i)

def hexChar (n : Nat) : Char := if n < 10 then Char.ofNat (48 + n) else Char.ofNat (87 + n)

/-- The sixteen hexadecimal digits of a 64-bit value, most significant first. -/
def toHex (n : UInt64) : List Char :=
  (List.range 16).map fun i => hexChar (n.toNat / 16 ^ (15 - i) % 16)

/-- The hash state after a request and its enqueue time. -/
def entryHash (request : CommentRequest) (enqueuedAt : UInt64) : UInt64 :=
  fnvEat fnvOffset (utf8 request.owner ++ [0] ++ utf8 request.repo ++ [0] ++
    toLeBytes request.prNumber ++ utf8 request.body ++ toLeBytes enqueuedAt)

/-- Derive an identifier, adding a salt only when resolving a collision. -/
def entryIdWithSalt (request : CommentRequest) (enqueuedAt : UInt64) (salt : Option UInt64) :
    String :=
  let hash := match salt with
    | none => entryHash request enqueuedAt
    | some salt => fnvEat (entryHash request enqueuedAt) (toLeBytes salt)
  String.ofList ((toHex hash).take 8)

theorem isAsciiHexdigit_hexChar {n : Nat} (h : n < 16) : isAsciiHexdigit (hexChar n) = true := by
  have : ∀ m, m < 16 → isAsciiHexdigit (hexChar m) = true := by decide
  exact this n h

/-- Every derived identifier is a safe filename. -/
theorem isValidId_entryIdWithSalt (request : CommentRequest) (enqueuedAt : UInt64)
    (salt : Option UInt64) : isValidId (entryIdWithSalt request enqueuedAt salt) = true := by
  unfold entryIdWithSalt
  generalize (match salt with
    | none => entryHash request enqueuedAt
    | some salt => fnvEat (entryHash request enqueuedAt) (toLeBytes salt)) = hash
  unfold isValidId
  simp only [String.toList_ofList, Bool.and_eq_true, beq_iff_eq, List.all_eq_true]
  refine ⟨by simp [toHex], fun c hc => ?_⟩
  obtain ⟨i, -, rfl⟩ := List.mem_map.1 (List.mem_of_mem_take hc)
  exact isAsciiHexdigit_hexChar (Nat.mod_lt _ (by decide))

/-! ## Resolving collisions -/

/-- The number of salts tried before the saturated salt repeats: none, then 1 up to the largest. -/
def saltCount : Nat := 2 ^ 64

section Resolve

variable (J : SerdeJson) (fs : QueueFs) (request : CommentRequest) (now : UInt64)

/-- Try salts until an identifier is free or already names this request. Running out of attempts
means that the loop has reached the saturated salt and never ends. -/
def resolveFrom : Nat → Option UInt64 →
    Option (Except StoreError (String × Option StoredEntry))
  | 0, _ => none
  | attempts + 1, salt =>
    let id := entryIdWithSalt request now salt
    match find J fs id with
    | .ok existing =>
      if existing.request = request then some (.ok (id, some existing))
      else resolveFrom attempts (some (match salt with
        | none => 1
        | some value => Saturating.add value 1))
    | .error (.unknownId _) => some (.ok (id, none))
    | .error e => some (.error e)

/-- Find a request's stable identifier, salting only on content collisions. -/
def resolveEntryId : Option (Except StoreError (String × Option StoredEntry)) :=
  resolveFrom J fs request now saltCount none

/-- What a resolved identifier says about the store. -/
def Resolved (id : String) : Option StoredEntry → Prop
  | none => ∃ other, find J fs id = .error (.unknownId other)
  | some entry => find J fs id = .ok entry ∧ entry.request = request

variable {J fs request now}

theorem resolveFrom_ok {attempts : Nat} {salt : Option UInt64} {id : String}
    {existing : Option StoredEntry}
    (h : resolveFrom J fs request now attempts salt = some (.ok (id, existing))) :
    isValidId id = true ∧ Resolved J fs request id existing := by
  induction attempts generalizing salt with
  | zero => cases h
  | succ attempts ih =>
    unfold resolveFrom at h
    simp only at h
    split at h
    · next entry hfind =>
      split at h
      · next hreq =>
        simp only [Option.some.injEq, Except.ok.injEq, Prod.mk.injEq] at h
        obtain ⟨rfl, rfl⟩ := h
        exact ⟨isValidId_entryIdWithSalt .., hfind, hreq⟩
      · exact ih h
    · next other hfind =>
      simp only [Option.some.injEq, Except.ok.injEq, Prod.mk.injEq] at h
      obtain ⟨rfl, rfl⟩ := h
      exact ⟨isValidId_entryIdWithSalt .., other, hfind⟩
    · cases h

theorem resolveEntryId_ok {id : String} {existing : Option StoredEntry}
    (h : resolveEntryId J fs request now = some (.ok (id, existing))) :
    isValidId id = true ∧ Resolved J fs request id existing :=
  resolveFrom_ok h

end Resolve

end Comenq
