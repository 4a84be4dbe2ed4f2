import Curvy.Lib.MerklePath

/-!
# The append frontier of a padded perfect tree

Per level, the subtree that ends where the leaves end, present at the set bits of the
leaf count. It determines the root and the next leaf's path, and one append is a carry
of a binary counter.
-/

namespace PerfectTree

set_option autoImplicit false

universe u
variable {α : Type u} (hash : α → α → α) (z : α)

def slot (leaves : List α) (l : Nat) : Option α :=
  if leaves.length / 2 ^ l % 2 = 1 then some (node hash z leaves l (leaves.length / 2 ^ l - 1))
  else none

theorem slot_of_odd {leaves : List α} {l : Nat} (h : leaves.length / 2 ^ l % 2 = 1) :
    slot hash z leaves l = some (node hash z leaves l (leaves.length / 2 ^ l - 1)) := if_pos h

@[simp] theorem slot_nil (l : Nat) : slot hash z ([] : List α) l = none := by simp [slot]

theorem pred_lt_of_odd {q : Nat} (h : q % 2 = 1) : q - 1 < q := by omega

/-- Right of the last leaf everything is empty. -/
theorem node_boundary_sibling {leaves : List α} {n : Nat} (hlen : leaves.length ≤ n + 1) (l : Nat) :
    node hash z leaves l (sibling (n / 2 ^ l)) =
      if n / 2 ^ l % 2 = 1 then node hash z leaves l (n / 2 ^ l - 1) else empty hash z l := by
  unfold sibling
  split
  · rename_i heven
    have hend := Nat.lt_div_mul_add (a := n) (Nat.two_pow_pos l)
    have hmul : (n / 2 ^ l + 1) * 2 ^ l = n / 2 ^ l * 2 ^ l + 2 ^ l := by ring
    rw [if_neg (by omega), node_of_length_le hash z (by omega)]
  · rw [if_pos (by omega)]

theorem node_boundary_succ {leaves : List α} {n : Nat} (hlen : leaves.length ≤ n + 1) (l : Nat) :
    node hash z leaves (l + 1) (n / 2 ^ (l + 1)) =
      if n / 2 ^ l % 2 = 1 then
        hash (node hash z leaves l (n / 2 ^ l - 1)) (node hash z leaves l (n / 2 ^ l))
      else hash (node hash z leaves l (n / 2 ^ l)) (empty hash z l) := by
  rw [div_two_pow_succ, ← join_node, node_boundary_sibling hash z hlen]
  unfold join
  split
  · rw [if_neg (by omega), if_neg (by omega)]
  · rw [if_pos (by omega), if_pos (by omega)]

/-! ### Carries -/

/-- The low `l` bits of `n` are all set. -/
def Carries (n l : Nat) : Prop := n + 1 = (n / 2 ^ l + 1) * 2 ^ l

theorem carries_zero (n : Nat) : Carries n 0 := by simp [Carries]

theorem Carries.succ {n l : Nat} (h : Carries n l) (hodd : n / 2 ^ l % 2 = 1) :
    Carries n (l + 1) := by
  unfold Carries at *
  rw [div_two_pow_succ, pow_succ, h]
  have hhalf : n / 2 ^ l + 1 = (n / 2 ^ l / 2 + 1) * 2 := by omega
  calc (n / 2 ^ l + 1) * 2 ^ l = (n / 2 ^ l / 2 + 1) * 2 * 2 ^ l := by rw [← hhalf]
    _ = (n / 2 ^ l / 2 + 1) * (2 ^ l * 2) := by ring

theorem carries_iff_dvd (n l : Nat) : Carries n l ↔ (n + 1) % 2 ^ l = 0 := by
  have hpos := Nat.two_pow_pos l
  constructor
  · intro h
    rw [h, Nat.mul_mod_left]
  · intro h
    obtain ⟨q, hq⟩ := Nat.dvd_of_mod_eq_zero h
    unfold Carries
    have hdiv : n / 2 ^ l = q - 1 := by
      have hq' : q ≠ 0 := by
        rintro rfl
        simp at hq
      have hsplit : 2 ^ l * q = (q - 1) * 2 ^ l + 2 ^ l := by
        obtain ⟨p, rfl⟩ := Nat.exists_eq_succ_of_ne_zero hq'
        simp only [Nat.succ_eq_add_one, Nat.add_sub_cancel]
        ring
      rw [Nat.div_eq_iff hpos]
      omega
    rw [hdiv, hq, Nat.mul_comm]
    congr 1
    have : q ≠ 0 := by
      rintro rfl
      simp at hq
    omega

theorem Carries.div_lt {n l h : Nat} (hc : Carries n l) (hlt : h < l) : (n + 1) / 2 ^ h % 2 = 0 := by
  have hpow : (2 : Nat) ^ l = 2 ^ (l - h - 1) * 2 * 2 ^ h := by
    rw [← pow_succ, ← pow_add]
    congr 1
    omega
  rw [hc, hpow, ← Nat.mul_assoc, Nat.mul_div_cancel _ (Nat.two_pow_pos h), ← Nat.mul_assoc,
    Nat.mul_mod_left]

theorem Carries.div_eq {n l : Nat} (hc : Carries n l) : (n + 1) / 2 ^ l = n / 2 ^ l + 1 := by
  conv_lhs => rw [hc]
  rw [Nat.mul_div_cancel _ (Nat.two_pow_pos l)]

theorem Carries.div_gt {n l h : Nat} (hc : Carries n l) (heven : n / 2 ^ l % 2 = 0) (hlt : l < h) :
    (n + 1) / 2 ^ h = n / 2 ^ h := by
  obtain ⟨k, rfl⟩ : ∃ k, h = l + (k + 1) := ⟨h - l - 1, by omega⟩
  have hsplit : ∀ m : Nat, m / 2 ^ (l + (k + 1)) = m / 2 ^ l / 2 / 2 ^ k := by
    intro m
    rw [pow_add, pow_succ', ← Nat.div_div_eq_div_mul, ← Nat.div_div_eq_div_mul]
  rw [hsplit, hsplit, hc.div_eq]
  congr 1
  omega

/-- One append: the slots below the first clear bit empty, that one fills with the
carried node, the others stay. -/
theorem slot_append {leaves : List α} {x : α} {l : Nat} (hc : Carries leaves.length l)
    (heven : leaves.length / 2 ^ l % 2 = 0) (h : Nat) :
    slot hash z (leaves ++ [x]) h =
      if h < l then none
      else if h = l then some (node hash z (leaves ++ [x]) l (leaves.length / 2 ^ l))
      else slot hash z leaves h := by
  have hlen : (leaves ++ [x]).length = leaves.length + 1 := by simp
  unfold slot
  rw [hlen]
  rcases Nat.lt_trichotomy h l with hlt | rfl | hgt
  · rw [if_pos hlt, if_neg (by rw [hc.div_lt hlt]; omega)]
  · rw [hc.div_eq, if_pos (by omega), if_neg (by omega), if_pos rfl, Nat.add_sub_cancel]
  · rw [hc.div_gt heven hgt, if_neg (Nat.not_lt.mpr hgt.le), if_neg (Nat.ne_of_gt hgt)]
    split
    · rename_i hodd
      rw [node_append_of_lt hash z (pred_lt_of_odd hodd)]
    · rfl

/-- The siblings of the next leaf, read off the slots. -/
theorem path_append_singleton (leaves : List α) (x : α) (d : Nat) :
    path hash z (leaves ++ [x]) d leaves.length =
      (List.range d).map fun l => (slot hash z leaves l).getD (empty hash z l) := by
  apply List.map_congr_left
  intro l _
  rw [node_boundary_sibling hash z (by simp)]
  unfold slot
  split
  · rename_i hodd
    rw [node_append_of_lt hash z (pred_lt_of_odd hodd), Option.getD_some]
  · rfl

end PerfectTree
