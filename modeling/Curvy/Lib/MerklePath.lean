import Curvy.Lib.PerfectTree
import Mathlib.Data.Nat.Bitwise

/-!
# Inclusion paths in padded perfect trees

`path` lists the siblings of a leaf bottom to top, `climb` hashes a value up a
sibling list. Climbing a tree's own path reaches its root; two openings of one root
at one index agree or hash two different pairs to the same value.
-/

namespace PerfectTree

set_option autoImplicit false

universe u
variable {α : Type u} (hash : α → α → α) (z : α)

/-- The other child of the same parent. -/
def sibling (i : Nat) : Nat := if i % 2 = 0 then i + 1 else i - 1

theorem div_two_pow_succ (i l : Nat) : i / 2 ^ (l + 1) = i / 2 ^ l / 2 := by
  rw [pow_succ, Nat.div_div_eq_div_mul]

theorem div_two_pow_shiftRight (i l : Nat) : (i / 2 ^ l) >>> 1 = i / 2 ^ (l + 1) := by
  rw [div_two_pow_succ, Nat.shiftRight_one]

def path (leaves : List α) (d i : Nat) : List α :=
  (List.range d).map fun l => node hash z leaves l (sibling (i / 2 ^ l))

@[simp] theorem path_length (leaves : List α) (d i : Nat) :
    (path hash z leaves d i).length = d := by simp [path]

theorem path_succ (leaves : List α) (d i : Nat) :
    path hash z leaves (d + 1) i =
      path hash z leaves d i ++ [node hash z leaves d (sibling (i / 2 ^ d))] := by
  simp [path, List.range_succ]

/-- The pair hashed at one level, in left-right order. -/
def ordered (i : Nat) (a s : α) : α × α := if i % 2 = 0 then (a, s) else (s, a)

def join (i : Nat) (a s : α) : α := if i % 2 = 0 then hash a s else hash s a

theorem join_eq_ordered (i : Nat) (a s : α) :
    join hash i a s = hash (ordered i a s).1 (ordered i a s).2 := by
  unfold join ordered
  split <;> rfl

def climb : α → Nat → List α → α
  | a, _, [] => a
  | a, i, s :: rest => climb (join hash i a s) (i / 2) rest

@[simp] theorem climb_nil (a : α) (i : Nat) : climb hash a i [] = a := rfl

@[simp] theorem climb_cons (a s : α) (i : Nat) (rest : List α) :
    climb hash a i (s :: rest) = climb hash (join hash i a s) (i / 2) rest := rfl

theorem climb_append (a : α) (i : Nat) (s t : List α) :
    climb hash a i (s ++ t) = climb hash (climb hash a i s) (i / 2 ^ s.length) t := by
  induction s generalizing a i with
  | nil => simp
  | cons x s ih =>
    simp only [List.cons_append, climb_cons, ih, List.length_cons]
    rw [Nat.pow_succ', Nat.div_div_eq_div_mul]

/-- Only the bits of the index below the path's length count. -/
theorem climb_mod (a : α) (i : Nat) (s : List α) :
    climb hash a (i % 2 ^ s.length) s = climb hash a i s := by
  induction s generalizing a i with
  | nil => rfl
  | cons x s ih =>
    have hbit : i % 2 ^ (s.length + 1) % 2 = i % 2 :=
      Nat.mod_mod_of_dvd i (Nat.pow_succ' ▸ Nat.dvd_mul_right 2 _)
    have hrest : i % 2 ^ (s.length + 1) / 2 = i / 2 % 2 ^ s.length := by
      rw [Nat.pow_succ', Nat.mod_mul_right_div_self]
    rw [climb_cons, climb_cons, List.length_cons, hrest, ih, join, hbit, join]

theorem join_node (leaves : List α) (h i : Nat) :
    join hash i (node hash z leaves h i) (node hash z leaves h (sibling i)) =
      node hash z leaves (h + 1) (i / 2) := by
  unfold join sibling
  rw [node_succ]
  by_cases hi : i % 2 = 0
  · simp only [if_pos hi]
    congr 2 <;> omega
  · simp only [if_neg hi]
    congr 2 <;> omega

theorem climb_path (leaves : List α) (d i : Nat) :
    climb hash (leaves.getD i z) i (path hash z leaves d i) =
      node hash z leaves d (i / 2 ^ d) := by
  induction d with
  | zero => simp [path]
  | succ d ih =>
    rw [path_succ, climb_append, ih, path_length, climb_cons, climb_nil, join_node,
      div_two_pow_succ]

/-- A path through the cut at height `a` is the path inside the subtree followed by
the path in the tree of subtree roots. -/
theorem path_add (leaves : List α) (a b i : Nat) :
    path hash z leaves (a + b) i =
      path hash z leaves a i ++
        path hash (empty hash z a) (row hash z leaves a) b (i / 2 ^ a) := by
  induction b with
  | zero => simp [path]
  | succ b ih =>
    rw [← Nat.add_assoc, path_succ, ih, path_succ, List.append_assoc, node_add,
      Nat.div_div_eq_div_mul, ← pow_add]

/-! ### Binding -/

/-- All pairs hashed on the way up. -/
def pairs : α → Nat → List α → List (α × α)
  | _, _, [] => []
  | a, i, s :: rest => ordered i a s :: pairs (join hash i a s) (i / 2) rest

/-- Two openings at index `i` hash different pairs to one value at the same level. -/
def Collision (i : Nat) (a : α) (s : List α) (b : α) (t : List α) : Prop :=
  ∃ (k : Nat) (p q : α × α), (pairs hash a i s)[k]? = some p ∧ (pairs hash b i t)[k]? = some q ∧
    p ≠ q ∧ hash p.1 p.2 = hash q.1 q.2

theorem Collision.cons {i : Nat} {a b x y : α} {s t : List α}
    (h : Collision hash (i / 2) (join hash i a x) s (join hash i b y) t) :
    Collision hash i a (x :: s) b (y :: t) := by
  obtain ⟨k, p, q, hp, hq, hne, heq⟩ := h
  exact ⟨k + 1, p, q, by simpa [pairs] using hp, by simpa [pairs] using hq, hne, heq⟩

theorem ordered_inj {i : Nat} {a b x y : α} (h : ordered i a x = ordered i b y) :
    a = b ∧ x = y := by
  unfold ordered at h
  split at h
  · exact ⟨congrArg Prod.fst h, congrArg Prod.snd h⟩
  · exact ⟨congrArg Prod.snd h, congrArg Prod.fst h⟩

/-- Openings of one root at one index coincide unless they exhibit a collision. -/
theorem climb_binding (i : Nat) (a b : α) (s t : List α) (hlen : s.length = t.length)
    (hroot : climb hash a i s = climb hash b i t) :
    (a = b ∧ s = t) ∨ Collision hash i a s b t := by
  induction s generalizing a b i t with
  | nil =>
    have ht : t = [] := List.length_eq_zero_iff.mp hlen.symm
    subst ht
    exact Or.inl ⟨hroot, rfl⟩
  | cons x s ih =>
    cases t with
    | nil => simp at hlen
    | cons y t =>
      rcases ih (i / 2) _ _ t (by simpa using hlen) hroot with ⟨hjoin, hst⟩ | hcol
      · by_cases hpair : ordered i a x = ordered i b y
        · obtain ⟨hab, hxy⟩ := ordered_inj hpair
          exact Or.inl ⟨hab, by rw [hxy, hst]⟩
        · refine Or.inr ⟨0, _, _, rfl, rfl, hpair, ?_⟩
          exact (join_eq_ordered hash i a x).symm.trans (hjoin.trans (join_eq_ordered hash i b y))
      · exact Or.inr (Collision.cons hash hcol)

/-- An injective pair hash has no collisions. -/
theorem not_collision_of_injective (inj : ∀ {a b c d : α}, hash a b = hash c d → a = c ∧ b = d)
    (i : Nat) (a b : α) (s t : List α) : ¬ Collision hash i a s b t := by
  rintro ⟨k, p, q, _, _, hne, heq⟩
  obtain ⟨h1, h2⟩ := inj heq
  exact hne (Prod.ext h1 h2)

/-! ### Slices -/

theorem getD_take (l : List α) (n j : Nat) (hj : j < n) : (l.take n).getD j z = l.getD j z := by
  simp [List.getD_eq_getElem?_getD, hj]

theorem getD_drop (l : List α) (n j : Nat) : (l.drop n).getD j z = l.getD (n + j) z := by
  simp [List.getD_eq_getElem?_getD]

/-- The height-`a` slice number `s` of the leaf row. -/
def slice (leaves : List α) (a s : Nat) : List α := (leaves.drop (s * 2 ^ a)).take (2 ^ a)

theorem slice_append {l : List α} (m : List α) {a s : Nat} (h : (s + 1) * 2 ^ a ≤ l.length) :
    slice (l ++ m) a s = slice l a s := by
  unfold slice
  generalize 2 ^ a = p at h ⊢
  rw [Nat.succ_mul] at h
  rw [List.drop_append_of_le_length (by omega), List.take_append_of_le_length]
  rw [List.length_drop]
  omega

theorem node_slice (leaves : List α) {a h s j : Nat} (hle : h ≤ a) (hj : j < 2 ^ (a - h)) :
    node hash z (slice leaves a s) h j = node hash z leaves h (s * 2 ^ (a - h) + j) := by
  apply node_congr_offset
  intro k _ hk
  have hpow : 2 ^ (a - h) * 2 ^ h = 2 ^ a := by rw [← pow_add, Nat.sub_add_cancel hle]
  have hbound : (j + 1) * 2 ^ h ≤ 2 ^ a := by
    rw [← hpow]
    exact Nat.mul_le_mul_right _ hj
  rw [slice, getD_take _ _ _ _ (by omega), getD_drop, Nat.mul_assoc, hpow]

theorem node_slice_root (leaves : List α) (a s : Nat) :
    node hash z (slice leaves a s) a 0 = node hash z leaves a s := by
  simpa using node_slice hash z leaves (a := a) (h := a) (s := s) (j := 0) le_rfl (by simp)

theorem two_pow_sub_even {a h : Nat} (hlt : h < a) : 2 ^ (a - h) = 2 * 2 ^ (a - h - 1) := by
  rw [← Nat.pow_succ']
  congr 1
  omega

theorem sibling_div_lt {a h j : Nat} (hj : j < 2 ^ a) (hlt : h < a) :
    sibling (j / 2 ^ h) < 2 ^ (a - h) := by
  have hpow : 2 ^ (a - h) * 2 ^ h = 2 ^ a := by rw [← pow_add, Nat.sub_add_cancel hlt.le]
  have hdiv : j / 2 ^ h < 2 ^ (a - h) := by
    rw [Nat.div_lt_iff_lt_mul (Nat.two_pow_pos h), hpow]
    exact hj
  have heven := two_pow_sub_even hlt
  generalize j / 2 ^ h = x at hdiv ⊢
  unfold sibling
  split <;> omega

theorem sibling_add_even (c i : Nat) : sibling (2 * c + i) = 2 * c + sibling i := by
  unfold sibling
  have : (2 * c + i) % 2 = i % 2 := by omega
  rw [this]
  split <;> omega

/-- Inside a slice the path is the full tree's path below the cut. -/
theorem path_slice (leaves : List α) {a s j : Nat} (hj : j < 2 ^ a) :
    path hash z (slice leaves a s) a j = path hash z leaves a (s * 2 ^ a + j) := by
  unfold path
  apply List.map_congr_left
  intro h hh
  have hlt : h < a := List.mem_range.mp hh
  have hpow : 2 ^ a = 2 ^ (a - h) * 2 ^ h := by rw [← pow_add, Nat.sub_add_cancel hlt.le]
  rw [node_slice hash z leaves hlt.le (sibling_div_lt hj hlt)]
  congr 1
  have hdiv : (s * 2 ^ a + j) / 2 ^ h = s * 2 ^ (a - h) + j / 2 ^ h := by
    rw [hpow, ← Nat.mul_assoc, Nat.mul_comm _ (2 ^ h),
      Nat.mul_add_div (Nat.two_pow_pos h)]
  rw [hdiv, two_pow_sub_even hlt, Nat.mul_left_comm, sibling_add_even]

end PerfectTree
