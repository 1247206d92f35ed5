/-
The order in which a trie lists its entries.

The cells of a branch stand in the order of their digits, so a trie
lists its entries in the order of the digits of their hashes, and those
of one hash stand in one bucket. Alike lists in that order are the same
list: nothing of the shape of a trie shows in it. What a ledger says of
the order is a stable sort of its entries by the digits (`inOrder`).
-/
import PersistentCollections.Proofs.HashMap.Alike
import PersistentCollections.Proofs.HashMap.Shape

namespace PersistentCollections.HashMap

open Node (At)

variable {κ ν : Type} [Hashable κ] {l r entries : List (κ × ν)}

-- ============================================================= the hashes

/-- The digits of a hash come before those of another one. -/
def Before (h h' : UInt64) : Prop :=
  List.Lex (· < ·) (digits h) (digits h')

/-- Whether a hash is another one or comes before it. -/
def upTo (h h' : UInt64) : Bool := h == h' || (digits h).lex (digits h')

section

variable {h h' h'' : UInt64}

theorem upTo_iff : upTo h h' = true ↔ h = h' ∨ Before h h' := by
  unfold upTo Before
  rw [Bool.or_eq_true, beq_iff_eq, List.lex_eq_true_iff_lex]
  simp only [decide_eq_true_eq]

theorem not_before_self : ¬Before h h :=
  List.lex_irrefl Nat.lt_irrefl _

theorem Before.trans (hb : Before h h') (hb' : Before h' h'') :
    Before h h'' :=
  List.lex_trans Nat.lt_trans hb hb'

theorem before_total : h = h' ∨ Before h h' ∨ Before h' h := by
  by_cases hb : Before h h'
  · exact .inr (.inl hb)
  · by_cases hb' : Before h' h
    · exact .inr (.inr hb')
    · refine .inl (digits_injective (List.lex_trichotomous ?_ hb' hb))
      intro d e hde hed
      omega

theorem upTo_trans (h h' h'' : UInt64) (hu : upTo h h' = true)
    (hu' : upTo h' h'' = true) : upTo h h'' = true := by
  rw [upTo_iff] at hu hu' ⊢
  rcases hu with rfl | hb
  · exact hu'
  · rcases hu' with rfl | hb'
    · exact .inr hb
    · exact .inr (hb.trans hb')

theorem upTo_total (h h' : UInt64) : (upTo h h' || upTo h' h) = true := by
  rw [Bool.or_eq_true, upTo_iff, upTo_iff]
  rcases @before_total h h' with rfl | hb | hb
  · exact .inl (.inl rfl)
  · exact .inl (.inr hb)
  · exact .inr (.inr hb)

/-- What lies behind an earlier digit comes before. -/
theorem Leads.before {path : List Nat} {d e : Nat}
    (hd : Leads (path ++ [d]) h) (he : Leads (path ++ [e]) h')
    (hlt : d < e) : Before h h' := by
  obtain ⟨rest, hrest⟩ := hd
  obtain ⟨rest', hrest'⟩ := he
  unfold Before
  rw [← hrest, ← hrest', List.append_assoc, List.append_assoc]
  exact List.append_left_lt (.rel hlt)

end

-- ============================================================ the sorting

/-- Entries in the order of the digits of their hashes. -/
def Ascending (entries : List (κ × ν)) : Prop :=
  entries.Pairwise fun x y =>
    hash x.1 = hash y.1 ∨ Before (hash x.1) (hash y.1)

/-- The entries in the order of the digits; those of one hash stay in
the order they have. -/
def inOrder (entries : List (κ × ν)) : List (κ × ν) :=
  entries.mergeSort fun x y => upTo (hash x.1) (hash y.1)

theorem ascending_inOrder (entries : List (κ × ν)) :
    Ascending (inOrder entries) :=
  (List.pairwise_mergeSort
    (fun x y z => upTo_trans (hash x.1) (hash y.1) (hash z.1))
    (fun x y => upTo_total (hash x.1) (hash y.1)) entries).imp upTo_iff.mp

/-- Sorting leaves the entries of one hash in their order. -/
theorem alike_inOrder (entries : List (κ × ν)) :
    Alike (inOrder entries) entries := by
  intro h
  have hsorted : (withHash h entries).Pairwise fun x y =>
      upTo (hash x.1) (hash y.1) = true := by
    apply List.pairwise_of_forall_mem_list
    intro x hx y hy
    have hx := eq_of_beq (List.mem_filter.mp hx).2
    have hy := eq_of_beq (List.mem_filter.mp hy).2
    exact upTo_iff.mpr (.inl (hx.trans hy.symm))
  have hkept := (List.sublist_mergeSort
    (fun x y z => upTo_trans (hash x.1) (hash y.1) (hash z.1))
    (fun x y => upTo_total (hash x.1) (hash y.1)) hsorted
    List.filter_sublist).filter fun x => hash x.1 == h
  have hlen : (withHash h (inOrder entries)).length
      = (withHash h entries).length :=
    ((List.mergeSort_perm entries _).filter _).length_eq
  have hsame : withHash h (withHash h entries) = withHash h entries := by
    unfold withHash
    rw [List.filter_filter]
    simp only [Bool.and_self]
  rw [show List.filter _ (withHash h entries) = _ from hsame] at hkept
  exact (hkept.eq_of_length hlen.symm).symm

/-- Alike lists in order are the same. -/
theorem Ascending.eq_of_alike (hl : Ascending l) (hr : Ascending r)
    (h : Alike l r) : l = r := by
  induction l generalizing r with
  | nil => exact (List.nil_perm.mp h.perm).symm
  | cons x l ih =>
      cases r with
      | nil => exact List.perm_nil.mp h.perm
      | cons y r =>
          obtain ⟨hx, hl'⟩ := List.pairwise_cons.mp hl
          obtain ⟨hy, hr'⟩ := List.pairwise_cons.mp hr
          -- each head stands somewhere in the other list, so neither
          -- hash comes before the other one
          have hhash : hash x.1 = hash y.1 := by
            have hmem := List.mem_cons.mp
              (h.perm.symm.subset List.mem_cons_self)
            have hmem' := List.mem_cons.mp
              (h.perm.subset List.mem_cons_self)
            rcases hmem with rfl | hmem
            · rfl
            · rcases hmem' with rfl | hmem'
              · rfl
              · rcases hx y hmem with heq | hbefore
                · exact heq
                · rcases hy x hmem' with heq | hafter
                  · exact heq.symm
                  · exact (not_before_self (hbefore.trans hafter)).elim
          have hhead := h (hash x.1)
          unfold withHash at hhead
          rw [List.filter_cons_of_pos (by simp),
            List.filter_cons_of_pos (by simp [hhash])] at hhead
          obtain ⟨rfl, -⟩ := List.cons.inj hhead
          refine congrArg (x :: ·) (ih hl' hr' fun key => ?_)
          have hkey := h key
          unfold withHash at hkey ⊢
          rw [List.filter_cons, List.filter_cons] at hkey
          split at hkey
          · exact (List.cons.inj hkey).2
          · exact hkey

-- =============================================================== the trie

/-- A trie lists its entries in the order of their digits. -/
theorem Node.Sound.ascending [BEq κ] {path : List Nat} {node : Node κ ν}
    (h : Node.Sound path node) : Ascending node.listed := by
  induction h with
  | bucket leads hashes distinct =>
      rw [listed_bucket]
      apply List.pairwise_of_forall_mem_list
      intro x hx y hy
      exact .inl ((hashes x hx).trans (hashes y hy).symm)
  | branch room lays entries children many ih =>
      have hslots := slots_sound entries children many
      rw [lays.listed_eq]
      apply pairwise_listedCells
      · intro d slot hslot
        cases slot with
        | entry => simp
        | node child =>
            rw [listed_node]
            exact ih d child hslot
      · intro d e slot other hlt hd he x hx y hy
        have hxd := (hslots d slot hd).leads x hx
        have hye := (hslots e other he).leads y hy
        exact .inr (hxd.before hye hlt)

-- =============================================================== the keys

/-- Lists in order that have the same keys have them in the same order,
where each hash has but one key. -/
theorem keys_agree [BEq κ] [EquivBEq κ] [LawfulHashable κ]
    (hl : l.Pairwise fun x y => Before (hash x.1) (hash y.1))
    (hr : r.Pairwise fun x y => Before (hash x.1) (hash y.1))
    (hlr : ∀ x ∈ l, ∃ y ∈ r, (x.1 == y.1) = true)
    (hrl : ∀ y ∈ r, ∃ x ∈ l, (x.1 == y.1) = true) :
    (l.map (·.1) == r.map (·.1)) = true := by
  induction l generalizing r with
  | nil =>
      cases r with
      | nil => rfl
      | cons y r =>
          obtain ⟨x, hx, -⟩ := hrl y List.mem_cons_self
          cases hx
  | cons x l ih =>
      cases r with
      | nil =>
          obtain ⟨y, hy, -⟩ := hlr x List.mem_cons_self
          cases hy
      | cons y r =>
          obtain ⟨hx, hl'⟩ := List.pairwise_cons.mp hl
          obtain ⟨hy, hr'⟩ := List.pairwise_cons.mp hr
          have hkey : (x.1 == y.1) = true := by
            obtain ⟨w, hw, hxw⟩ := hlr x List.mem_cons_self
            obtain ⟨z, hz, hzy⟩ := hrl y List.mem_cons_self
            rcases List.mem_cons.mp hw with rfl | hw
            · exact hxw
            · rcases List.mem_cons.mp hz with rfl | hz
              · exact hzy
              -- both heads would come before each other
              · have hyw := hy w hw
                have hxz := hx z hz
                rw [← hash_eq hxw, ← hash_eq hzy] at hyw
                exact (not_before_self (hxz.trans hyw)).elim
          rw [List.map_cons, List.map_cons, List.cons_beq_cons, hkey,
            Bool.true_and]
          apply ih hl' hr'
          · intro z hz
            obtain ⟨w, hw, hzw⟩ := hlr z (List.mem_cons_of_mem _ hz)
            rcases List.mem_cons.mp hw with rfl | hw
            · have hxz := hx z hz
              rw [hash_eq hkey, ← hash_eq hzw] at hxz
              exact (not_before_self hxz).elim
            · exact ⟨w, hw, hzw⟩
          · intro w hw
            obtain ⟨z, hz, hzw⟩ := hrl w (List.mem_cons_of_mem _ hw)
            rcases List.mem_cons.mp hz with rfl | hz
            · have hyw := hy w hw
              rw [← hash_eq hkey, hash_eq hzw] at hyw
              exact (not_before_self hyw).elim
            · exact ⟨z, hz, hzw⟩

end PersistentCollections.HashMap
