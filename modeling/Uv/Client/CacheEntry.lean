import Uv.Client.CacheControl

/-!
# Cache entries

A cache entry is the data, the archived policy of the response and the length of the
archive in eight bytes, least significant byte first.  The length is read back from
the file, so it may be any number of 64 bits.

The archive is a parameter, as is the width of a machine word.  Sums of machine words
wrap in a release build and panic in a build with overflow checks, and a slice out of
range panics in both; none is a panic.
-/

namespace Uv.Client

/-! ## Little-endian numbers -/

/-- The lowest bytes of a number, least significant byte first. -/
def toLeBytes : ℕ → ℕ → Bytes
  | 0, _ => []
  | count + 1, n => UInt8.ofNat n :: toLeBytes count (n / 256)

def fromLeBytes (bytes : Bytes) : ℕ :=
  bytes.foldr (fun byte n => byte.toNat + 256 * n) 0

@[simp] theorem length_toLeBytes (count n : ℕ) : (toLeBytes count n).length = count := by
  induction count generalizing n with
  | zero => rfl
  | succ count ih => rw [toLeBytes, List.length_cons, ih]

theorem fromLeBytes_toLeBytes (count n : ℕ) :
    fromLeBytes (toLeBytes count n) = n % 256 ^ count := by
  induction count generalizing n with
  | zero => simp [toLeBytes, fromLeBytes, Nat.mod_one]
  | succ count ih =>
      calc fromLeBytes (toLeBytes (count + 1) n)
          = (UInt8.ofNat n).toNat + 256 * fromLeBytes (toLeBytes count (n / 256)) := rfl
        _ = n % 256 + 256 * (n / 256 % 256 ^ count) := by
            rw [ih, UInt8.toNat_ofNat']
        _ = n % 256 ^ (count + 1) := by
            rw [Nat.pow_succ', Nat.mod_mul]

namespace CacheEntry

inductive ErrorKind where
  | archiveRead (message : String)
  | archiveWrite (message : String)
  deriving DecidableEq

/-- Archiving a type: what is written is read back. -/
structure Archive (P : Type) where
  fromUnarchived : P → Except ErrorKind Bytes
  new : Bytes → Except ErrorKind P
  new_fromUnarchived :
    ∀ policy bytes, fromUnarchived policy = .ok bytes → new bytes = .ok policy

/-! ## Machine words -/

section Words

variable (usizeBits : ℕ) (overflowChecks : Bool)

def addUsize (a b : ℕ) : Option ℕ :=
  if a + b < 2 ^ usizeBits then some (a + b)
  else if overflowChecks then none
  else some ((a + b) % 2 ^ usizeBits)

def subUsize (a b : ℕ) : Option ℕ :=
  if b ≤ a then some (a - b)
  else if overflowChecks then none
  else some ((2 ^ usizeBits + a - b) % 2 ^ usizeBits)

/-- The part of a slice from an index on. -/
def sliceFrom (bytes : Bytes) (start : ℕ) : Option Bytes :=
  if start ≤ bytes.length then some (bytes.drop start) else none

/-- The part of a slice before an index. -/
def sliceTo (bytes : Bytes) (stop : ℕ) : Option Bytes :=
  if stop ≤ bytes.length then some (bytes.take stop) else none

end Words

/-! ## Writing and reading an entry -/

section Entry

variable {P : Type} (archive : Archive P)

/-- `serialize_to_writer`, to memory. -/
def serialize (cachePolicy : P) (data : Bytes) : Except ErrorKind Bytes := do
  let cachePolicyBytes ← archive.fromUnarchived cachePolicy
  return data ++ cachePolicyBytes ++ toLeBytes 8 cachePolicyBytes.length

/-- The number in the last eight bytes. -/
def trailingLen (bytes : Bytes) : ℕ := fromLeBytes (bytes.drop (bytes.length - 8))

variable (usizeBits : ℕ) (overflowChecks : Bool)

def deserializeCachePolicyLen (bytes : Bytes) : Option (Except ErrorKind ℕ) :=
  if bytes.length < 8 then
    some <| .error <| .archiveRead <|
      "data-with-cache-policy buffer should be at least 8 bytes in length, but is " ++
        toString bytes.length ++ " bytes"
  else
    let len := trailingLen bytes
    if 2 ^ usizeBits ≤ len then
      some <| .error <| .archiveRead <|
        "data-with-cache-policy has cache policy length of " ++ toString len ++
          ", but overflows usize"
    else
      (addUsize usizeBits overflowChecks len 8).map fun total =>
        if bytes.length < total then
          .error <| .archiveRead <|
            "invalid cache entry: data-with-cache-policy has cache policy length of " ++
              toString len ++ ", but total buffer size is " ++ toString bytes.length
        else .ok len

/-- The data that is left and the policy. -/
def deserializeCachePolicy (bytes : Bytes) : Option (Except ErrorKind (Bytes × P)) :=
  match deserializeCachePolicyLen usizeBits overflowChecks bytes with
  | none => none
  | some (.error error) => some (.error error)
  | some (.ok len) => do
      let total ← addUsize usizeBits overflowChecks len 8
      let start ← subUsize usizeBits overflowChecks bytes.length total
      let rest ← sliceFrom bytes start
      let cachePolicyBytes ← sliceTo rest len
      -- The assertion that this is a truncation.
      if bytes.length < start then none
      else
        return do
          let cachePolicy ← archive.new cachePolicyBytes
          return (bytes.take start, cachePolicy)

/-- `from_aligned_bytes`. -/
def fromAlignedBytes (bytes : Bytes) : Option (Except ErrorKind (Bytes × P)) :=
  deserializeCachePolicy archive usizeBits overflowChecks bytes

/-- The length cannot be read, is no machine word, or leaves room for its own eight
bytes below the end of the address space. -/
def LengthFits (bytes : Bytes) : Prop :=
  bytes.length < 8 ∨ 2 ^ usizeBits ≤ trailingLen bytes ∨
    trailingLen bytes + 8 < 2 ^ usizeBits

instance (bytes : Bytes) : Decidable (LengthFits usizeBits bytes) := by
  unfold LengthFits
  infer_instance

end Entry

/-! ## Lengths near the limit -/

section Reading

variable {P : Type} {archive : Archive P} {usizeBits : ℕ} {overflowChecks : Bool}
  {bytes : Bytes}

theorem addUsize_of_lt {a b : ℕ} (hsum : a + b < 2 ^ usizeBits) :
    addUsize usizeBits overflowChecks a b = some (a + b) := if_pos hsum

theorem subUsize_of_le {a b : ℕ} (hle : b ≤ a) :
    subUsize usizeBits overflowChecks a b = some (a - b) := if_pos hle

/-- A length within the buffer takes the two slices apart. -/
theorem deserializeCachePolicy_of_le (hbytes : bytes.length < 2 ^ usizeBits)
    (hlen : trailingLen bytes + 8 ≤ bytes.length) :
    deserializeCachePolicy archive usizeBits overflowChecks bytes =
      some (do
        let cachePolicy ← archive.new
          ((bytes.drop (bytes.length - (trailingLen bytes + 8))).take (trailingLen bytes))
        return (bytes.take (bytes.length - (trailingLen bytes + 8)), cachePolicy)) := by
  have htotal : addUsize usizeBits overflowChecks (trailingLen bytes) 8 =
      some (trailingLen bytes + 8) := addUsize_of_lt (by omega)
  have hread : deserializeCachePolicyLen usizeBits overflowChecks bytes =
      some (.ok (trailingLen bytes)) := by
    rw [deserializeCachePolicyLen, if_neg (by omega), if_neg (by omega), htotal,
      Option.map_some, if_neg (by omega)]
  have hrest : sliceFrom bytes (bytes.length - (trailingLen bytes + 8)) =
      some (bytes.drop (bytes.length - (trailingLen bytes + 8))) := if_pos (by omega)
  have hpolicy : sliceTo (bytes.drop (bytes.length - (trailingLen bytes + 8)))
      (trailingLen bytes) = some ((bytes.drop (bytes.length - (trailingLen bytes + 8))).take
        (trailingLen bytes)) := if_pos (by rw [List.length_drop]; omega)
  simp only [deserializeCachePolicy, hread, htotal, subUsize_of_le hlen, hrest, hpolicy,
    Option.bind_eq_bind, Option.bind_some]
  rw [if_neg (by omega)]
  rfl

/-- A length that leaves no room for its own bytes wraps to less than eight, and then
the second slice is out of range. -/
theorem deserializeCachePolicy_of_wrap (hbytes : bytes.length < 2 ^ usizeBits)
    (hlong : 8 ≤ bytes.length) (hword : trailingLen bytes < 2 ^ usizeBits)
    (hwrap : 2 ^ usizeBits ≤ trailingLen bytes + 8) :
    deserializeCachePolicy archive usizeBits overflowChecks bytes = none := by
  cases overflowChecks with
  | true =>
      have htotal : addUsize usizeBits true (trailingLen bytes) 8 = none := by
        rw [addUsize, if_neg (by omega), if_pos rfl]
      rw [deserializeCachePolicy, deserializeCachePolicyLen, if_neg (by omega),
        if_neg (by omega), htotal]
      rfl
  | false =>
      have hmod : (trailingLen bytes + 8) % 2 ^ usizeBits =
          trailingLen bytes + 8 - 2 ^ usizeBits := by
        rw [Nat.mod_eq_sub_mod hwrap]
        exact Nat.mod_eq_of_lt (by omega)
      have htotal : addUsize usizeBits false (trailingLen bytes) 8 =
          some (trailingLen bytes + 8 - 2 ^ usizeBits) := by
        rw [addUsize, if_neg (by omega), if_neg Bool.false_ne_true, hmod]
      have hread : deserializeCachePolicyLen usizeBits false bytes =
          some (.ok (trailingLen bytes)) := by
        rw [deserializeCachePolicyLen, if_neg (by omega), if_neg (by omega), htotal,
          Option.map_some, if_neg (by omega)]
      have hslice : sliceTo (bytes.drop (bytes.length -
          (trailingLen bytes + 8 - 2 ^ usizeBits))) (trailingLen bytes) = none := by
        rw [sliceTo, List.length_drop, if_neg (by omega)]
      have hrest : sliceFrom bytes (bytes.length - (trailingLen bytes + 8 - 2 ^ usizeBits)) =
          some (bytes.drop (bytes.length - (trailingLen bytes + 8 - 2 ^ usizeBits))) :=
        if_pos (by omega)
      have hsub : trailingLen bytes + 8 - 2 ^ usizeBits ≤ bytes.length := by omega
      simp only [deserializeCachePolicy, hread, htotal, subUsize_of_le hsub, hrest, hslice,
        Option.bind_eq_bind, Option.bind_some, Option.bind_none]

/-- Reading an entry panics exactly on the lengths near the limit. -/
theorem fromAlignedBytes_isSome_iff (hbytes : bytes.length < 2 ^ usizeBits) :
    (fromAlignedBytes archive usizeBits overflowChecks bytes).isSome = true ↔
      LengthFits usizeBits bytes := by
  unfold fromAlignedBytes LengthFits
  by_cases hshort : bytes.length < 8
  · simp [deserializeCachePolicy, deserializeCachePolicyLen, hshort]
  by_cases hword : 2 ^ usizeBits ≤ trailingLen bytes
  · simp [deserializeCachePolicy, deserializeCachePolicyLen, hshort, hword]
  by_cases hwrap : 2 ^ usizeBits ≤ trailingLen bytes + 8
  · rw [deserializeCachePolicy_of_wrap hbytes (by omega) (by omega) hwrap]
    simp only [Option.isSome_none, Bool.false_eq_true, false_iff]
    omega
  by_cases hlen : trailingLen bytes + 8 ≤ bytes.length
  · rw [deserializeCachePolicy_of_le hbytes hlen]
    simp only [Option.isSome_some, true_iff]
    omega
  · have htotal : addUsize usizeBits overflowChecks (trailingLen bytes) 8 =
        some (trailingLen bytes + 8) := addUsize_of_lt (by omega)
    rw [deserializeCachePolicy, deserializeCachePolicyLen, if_neg hshort, if_neg hword,
      htotal, Option.map_some, if_pos (by omega)]
    simp only [Option.isSome_some, true_iff]
    omega

/-! ## The round trip -/

theorem serialize_ok {cachePolicy : P} {data : Bytes}
    (hserialize : serialize archive cachePolicy data = .ok bytes) :
    ∃ policyBytes, archive.fromUnarchived cachePolicy = .ok policyBytes ∧
      bytes = data ++ policyBytes ++ toLeBytes 8 policyBytes.length := by
  unfold serialize at hserialize
  cases hpolicy : archive.fromUnarchived cachePolicy with
  | error error => simp [hpolicy, bind, Except.bind] at hserialize
  | ok policyBytes =>
      simp only [hpolicy, bind, Except.bind, pure, Except.pure, Except.ok.injEq] at hserialize
      exact ⟨policyBytes, rfl, hserialize.symm⟩

theorem trailingLen_append (front : Bytes) {n : ℕ} (hn : n < 2 ^ 64) :
    trailingLen (front ++ toLeBytes 8 n) = n := by
  have hlast : (front ++ toLeBytes 8 n).length - 8 = front.length := by simp
  rw [trailingLen, hlast, List.drop_left, fromLeBytes_toLeBytes]
  exact Nat.mod_eq_of_lt hn

/-- What is written is read back. -/
theorem fromAlignedBytes_serialize {cachePolicy : P} {data : Bytes} (hbits : usizeBits ≤ 64)
    (hserialize : serialize archive cachePolicy data = .ok bytes)
    (hbytes : bytes.length < 2 ^ usizeBits) :
    fromAlignedBytes archive usizeBits overflowChecks bytes =
      some (.ok (data, cachePolicy)) := by
  obtain ⟨policyBytes, hpolicy, rfl⟩ := serialize_ok hserialize
  have hword : 2 ^ usizeBits ≤ 2 ^ 64 := Nat.pow_le_pow_right (by decide) hbits
  have hlength : (data ++ policyBytes ++ toLeBytes 8 policyBytes.length).length =
      data.length + policyBytes.length + 8 := by
    simp only [List.length_append, length_toLeBytes]
  have htrailing : trailingLen (data ++ policyBytes ++ toLeBytes 8 policyBytes.length) =
      policyBytes.length := trailingLen_append _ (by omega)
  have hstart : (data ++ policyBytes ++ toLeBytes 8 policyBytes.length).length -
      (policyBytes.length + 8) = data.length := by omega
  rw [fromAlignedBytes, deserializeCachePolicy_of_le hbytes (by omega), htrailing, hstart,
    List.append_assoc, List.drop_left, List.take_left, List.take_left,
    archive.new_fromUnarchived cachePolicy policyBytes hpolicy]
  rfl

/-- Reading any bytes panics unless their length field fits, and what was written is
read back. -/
theorem isSome_iff_lengthFits_and_roundTrip {P : Type} (archive : Archive P)
    (usizeBits : ℕ) (overflowChecks : Bool) (hbits : usizeBits ≤ 64) :
    (∀ bytes : Bytes, bytes.length < 2 ^ usizeBits →
      ((fromAlignedBytes archive usizeBits overflowChecks bytes).isSome = true ↔
        LengthFits usizeBits bytes)) ∧
    ∀ (cachePolicy : P) (data bytes : Bytes),
      serialize archive cachePolicy data = .ok bytes → bytes.length < 2 ^ usizeBits →
        fromAlignedBytes archive usizeBits overflowChecks bytes =
          some (.ok (data, cachePolicy)) :=
  ⟨fun _ hbytes => fromAlignedBytes_isSome_iff hbytes,
    fun _ _ _ hserialize hbytes => fromAlignedBytes_serialize hbits hserialize hbytes⟩

end Reading

/-- The archive of a byte is the byte, and its root is the last one of a buffer. -/
def byteArchive : Archive UInt8 where
  fromUnarchived byte := .ok [byte]
  new bytes :=
    match bytes.getLast? with
    | some byte => .ok byte
    | none => .error (.archiveRead "pointer out of bounds")
  new_fromUnarchived := by
    rintro byte bytes ⟨⟩
    rfl

/-- Three bytes and an archived byte, written and read on a machine of 64 bits. -/
theorem isSome_iff_lengthFits_and_roundTrip_byte :
    fromAlignedBytes byteArchive 64 true [1, 2, 3, 9, 1, 0, 0, 0, 0, 0, 0, 0] =
      some (.ok ([1, 2, 3], 9)) :=
  (isSome_iff_lengthFits_and_roundTrip byteArchive 64 true (by decide)).2 9 [1, 2, 3] _ rfl
    (by decide)

/-- Eight bytes that are all set panic, even in a release build. -/
theorem fromAlignedBytes_ones :
    ¬ ∀ (overflowChecks : Bool) (bytes : Bytes), bytes.length < 2 ^ 64 →
      (fromAlignedBytes byteArchive 64 overflowChecks bytes).isSome = true := by
  intro htotal
  have hones := htotal false (List.replicate 8 255) (by decide)
  exact absurd hones (by decide +kernel)

end CacheEntry

end Uv.Client
