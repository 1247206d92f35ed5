/-
The digits of a hash spell it, and the paths that lead to it.

A path is the list of the digits read so far, the first one in front. It
leads to a hash whose digits start with it (`Leads`). Thirteen digits of
five bits hold all 64 bits of a hash, so a path of that length leads to
one hash alone; two different hashes part at some digit before.
-/
import PersistentCollections.HashMap.Digit

namespace PersistentCollections.HashMap

variable {hash other : UInt64} {path : List Nat} {left d : Nat}

-- ================================================================ digits

/-- The digits of a hash in the order in which branches read them. -/
def digits (hash : UInt64) : List Nat :=
  (List.range digitsPerHash).map fun depth =>
    digit hash (digitsPerHash - depth)

@[simp] theorem length_digits (hash : UInt64) :
    (digits hash).length = digitsPerHash := by
  simp [digits]

theorem digit_lt (hash : UInt64) (left : Nat) :
    digit hash left < digitCount :=
  Nat.mod_lt _ (by decide)

theorem getElem?_digits {depth : Nat} (h : depth < digitsPerHash) :
    (digits hash)[depth]? = some (digit hash (digitsPerHash - depth)) := by
  simp [digits, h]

/-- A bit of a hash is a bit of one of its digits. -/
theorem testBit_digit {depth bit : Nat} (hdepth : depth ≤ digitsPerHash)
    (hbit : bit < digitBits) :
    (digit hash (digitsPerHash - depth)).testBit bit
      = hash.toNat.testBit (digitBits * depth + bit) := by
  have hsub : digitsPerHash - (digitsPerHash - depth) = depth := by omega
  have hcount : digitCount = 2 ^ digitBits := rfl
  unfold digit
  rw [hsub, hcount, Nat.testBit_mod_two_pow, Nat.testBit_shiftRight]
  simp [hbit]

theorem digits_injective (h : digits hash = digits other) :
    hash = other := by
  apply UInt64.toNat_inj.mp
  apply Nat.eq_of_testBit_eq
  intro i
  by_cases hi : i < 64
  · have hcount : digitsPerHash = 13 := rfl
    have hdepth : i / 5 < digitsPerHash := by omega
    have hbit : i % 5 < digitBits := Nat.mod_lt _ (by decide)
    have hplace : digitBits * (i / 5) + i % 5 = i := Nat.div_add_mod i 5
    have hdigit : (digits hash)[i / 5]? = (digits other)[i / 5]? := by
      rw [h]
    rw [getElem?_digits hdepth, getElem?_digits hdepth] at hdigit
    have hsame := Option.some.inj hdigit
    rw [← hplace, ← testBit_digit (Nat.le_of_lt hdepth) hbit,
      ← testBit_digit (Nat.le_of_lt hdepth) hbit, hsame]
  · have hbound : 2 ^ 64 ≤ 2 ^ i :=
      Nat.pow_le_pow_right (by decide) (Nat.le_of_not_lt hi)
    have hlow : hash.toNat < 2 ^ i :=
      Nat.lt_of_lt_of_le hash.toNat_lt hbound
    have hlow' : other.toNat < 2 ^ i :=
      Nat.lt_of_lt_of_le other.toNat_lt hbound
    rw [Nat.testBit_lt_two_pow hlow, Nat.testBit_lt_two_pow hlow']

-- ================================================================= paths

/-- Whether a path is the way to a hash, as far as it goes. -/
def Leads (path : List Nat) (hash : UInt64) : Prop := path <+: digits hash

theorem leads_nil (hash : UInt64) : Leads [] hash := List.nil_prefix

/-- The digit a branch reads goes on with the path. -/
theorem Leads.step (h : Leads path hash)
    (hleft : path.length + (left + 1) = digitsPerHash) :
    Leads (path ++ [digit hash (left + 1)]) hash := by
  obtain ⟨rest, hrest⟩ := h
  have hdepth : path.length < digitsPerHash := by omega
  have hsub : digitsPerHash - path.length = left + 1 := by omega
  have hdigit := @getElem?_digits hash path.length hdepth
  rw [hsub, ← hrest, List.getElem?_append_right (Nat.le_refl _),
    Nat.sub_self] at hdigit
  obtain ⟨rest, rfl⟩ : ∃ after, rest = digit hash (left + 1) :: after := by
    cases rest with
    | nil => cases hdigit
    | cons d after =>
        cases hdigit
        exact ⟨after, rfl⟩
  exact ⟨rest, by rw [← hrest, List.append_assoc]; rfl⟩

theorem Leads.init (h : Leads (path ++ [d]) hash) : Leads path hash :=
  (List.prefix_append path [d]).trans h

/-- One digit goes on with a path to a hash. -/
theorem Leads.digit_eq {e : Nat} (h : Leads (path ++ [d]) hash)
    (hother : Leads (path ++ [e]) hash) : d = e := by
  have hsame : path ++ [d] = path ++ [e] :=
    List.IsPrefix.eq_of_length
      (List.prefix_of_prefix_length_le h hother (by simp)) (by simp)
  exact List.singleton_inj.mp (List.append_cancel_left hsame)

theorem Leads.length_le (h : Leads path hash) :
    path.length ≤ digitsPerHash := by
  have := List.IsPrefix.length_le h
  rwa [length_digits] at this

/-- Where two hashes have not parted there is a digit left. -/
theorem Leads.room (h : Leads path hash) (hother : Leads path other)
    (hne : hash ≠ other) : path.length < digitsPerHash := by
  refine Nat.lt_of_le_of_ne h.length_le fun hlen => hne ?_
  have hwhole : path = digits hash :=
    List.IsPrefix.eq_of_length h (by rw [hlen, length_digits])
  have hwhole' : path = digits other :=
    List.IsPrefix.eq_of_length hother (by rw [hlen, length_digits])
  exact digits_injective (hwhole.symm.trans hwhole')

end PersistentCollections.HashMap
