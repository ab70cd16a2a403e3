import Mathlib.Data.List.GetD
import MooseOS.Lib.Machine

/-!
# A pool of frames under a stack

A stack of slots takes its frames from a pool, first in first out, and gives them back when it shrinks. A slot that
is made when the pool is empty holds `0`, and `0` never goes into the pool.

* `Pool.resize` : grow or shrink the stack to a height;
* `Pool.stock` : all frames, those of the stack and those of the pool;
* `Pool.resize_stock` : the stock is the same up to order;
* `Pool.resizeBy`, `Pool.lostBy` : the same where a frame that is given back may be lost, and the frames that are;
* `Pool.resizeBy_grow_grow`, `Pool.resizeBy_shrink_shrink`, `Pool.resizeBy_back` : steps one way, and back;
* `Pool.run_up`, `Pool.run_down`, `Pool.run_back` : a run one way does what its last step does;
* `Pool.machine`, `Pool.ledger` : over every run the stock and the losses are the frames there were.
-/

namespace Prog

/-- The frames in the slots of the stack, from the bottom, and the pool, oldest frame first. -/
structure Pool (α : Type) where
  held : List α
  free : List α
deriving DecidableEq

namespace Pool
variable {α : Type} [Zero α]

theorem map_getD_range (l : List α) (n : Nat) :
    (List.range n).map (l.getD · 0) = l.take n ++ List.replicate (n - l.length) 0 := by
  refine List.ext_getElem (by simp; omega) fun i h₁ h₂ => ?_
  simp only [List.length_map, List.length_range] at h₁
  simp only [List.getElem_map, List.getElem_range, List.getD_eq_getElem?_getD, List.getElem_append, List.length_take,
    List.getElem_take, List.getElem_replicate]
  split
  · rw [List.getElem?_eq_getElem (by omega)]
    rfl
  · rw [List.getElem?_eq_none (by omega)]
    rfl

theorem map_getD_drop (l : List α) (m : Nat) : (List.range' m (l.length - m)).map (l.getD · 0) = l.drop m := by
  refine List.ext_getElem (by simp) fun i h₁ h₂ => ?_
  simp only [List.length_map, List.length_range'] at h₁
  simp only [List.getElem_map, List.getElem_range', Nat.one_mul, List.getElem_drop]
  exact List.getD_eq_getElem _ _ (by omega)

def grow (n : Nat) (s : Pool α) : Pool α :=
  ⟨s.held ++ (List.range n).map (s.free.getD · 0), s.free.drop n⟩

variable [DecidableEq α]

/-- Keep the lowest `m` slots; the highest one is given back first. -/
def shrink (m : Nat) (s : Pool α) : Pool α :=
  ⟨s.held.take m, s.free ++ (s.held.drop m).reverse.filter (· ≠ 0)⟩

def resize (m : Nat) (s : Pool α) : Pool α :=
  if s.held.length < m then s.grow (m - s.held.length) else s.shrink m

def stock (s : Pool α) : List α := s.held.filter (· ≠ 0) ++ s.free

theorem grow_stock {s : Pool α} (h0 : 0 ∉ s.free) (n : Nat) : (s.grow n).stock = s.stock := by
  have htake : (s.free.take n).filter (· ≠ 0) = s.free.take n :=
    List.filter_eq_self.mpr fun x hx => decide_eq_true fun he => h0 (he ▸ List.mem_of_mem_take hx)
  simp only [stock, grow, map_getD_range, List.filter_append, htake]
  simp [List.take_append_drop]

theorem shrink_stock (s : Pool α) (m : Nat) : (s.shrink m).stock.Perm s.stock := by
  have hsplit : s.held.filter (· ≠ 0) = (s.held.take m).filter (· ≠ 0) ++ (s.held.drop m).filter (· ≠ 0) := by
    rw [← List.filter_append, List.take_append_drop]
  have hrev : ((s.held.drop m).reverse.filter (· ≠ 0)).Perm ((s.held.drop m).filter (· ≠ 0)) :=
    (List.reverse_perm _).filter _
  simp only [stock, shrink, hsplit]
  calc (s.held.take m).filter (· ≠ 0) ++ (s.free ++ (s.held.drop m).reverse.filter (· ≠ 0))
      |>.Perm ((s.held.take m).filter (· ≠ 0) ++ ((s.held.drop m).filter (· ≠ 0) ++ s.free)) :=
        ((hrev.append_left s.free).trans List.perm_append_comm).append_left _
    _ = (s.held.take m).filter (· ≠ 0) ++ (s.held.drop m).filter (· ≠ 0) ++ s.free := (List.append_assoc _ _ _).symm

/-- **Conservation.** -/
theorem resize_stock {s : Pool α} (h0 : 0 ∉ s.free) (m : Nat) : (s.resize m).stock.Perm s.stock := by
  unfold resize
  split
  · rw [grow_stock h0]
  · exact s.shrink_stock m

theorem zero_notMem_free {s : Pool α} {xs : List α} (hs : s.stock.Perm xs) (h0 : 0 ∉ xs) : 0 ∉ s.free :=
  fun hmem => h0 (hs.subset (List.mem_append_right _ hmem))

/-! ## Losses -/

/-- The slots from `m` on that hold a frame, the highest first. -/
def slots (m : Nat) (s : Pool α) : List Nat :=
  (List.range' m (s.held.length - m)).reverse.filter fun i => decide (s.held.getD i 0 ≠ 0)

/-- Keep the lowest `m` slots; of the other ones, the frame of slot `i` is given back if `keep i`. -/
def shrinkBy (keep : Nat → Bool) (m : Nat) (s : Pool α) : Pool α :=
  ⟨s.held.take m, s.free ++ ((s.slots m).filter keep).map (s.held.getD · 0)⟩

/-- Bring the stack to height `m`. -/
def resizeBy (keep : Nat → Bool) (m : Nat) (s : Pool α) : Pool α :=
  if s.held.length < m then s.grow (m - s.held.length) else s.shrinkBy keep m

/-- The frames that are not given back then. -/
def lostBy (keep : Nat → Bool) (m : Nat) (s : Pool α) : List α :=
  if s.held.length < m then [] else ((s.slots m).filter fun i => !keep i).map (s.held.getD · 0)

/-- The frames of the slots are those above the lowest `m` slots. -/
theorem map_slots (s : Pool α) (m : Nat) :
    ((s.slots m).map (s.held.getD · 0)).Perm ((s.held.drop m).filter (· ≠ 0)) := by
  unfold slots
  rw [List.filter_reverse, List.map_reverse, ← map_getD_drop, List.filter_map]
  exact List.reverse_perm _

theorem resizeBy_of_lt {s : Pool α} (keep : Nat → Bool) {m : Nat} (h : s.held.length < m) :
    s.resizeBy keep m = s.grow (m - s.held.length) := if_pos h

theorem resizeBy_of_le {s : Pool α} (keep : Nat → Bool) {m : Nat} (h : m ≤ s.held.length) :
    s.resizeBy keep m = s.shrinkBy keep m := if_neg (Nat.not_lt.mpr h)

/-- **The ledger of one step**: a frame is in a slot, in the pool, or lost, and in one of these places only. -/
theorem resizeBy_stock {s : Pool α} (h0 : 0 ∉ s.free) (keep : Nat → Bool) (m : Nat) :
    ((s.resizeBy keep m).stock ++ s.lostBy keep m).Perm s.stock := by
  unfold resizeBy lostBy
  split
  · rw [List.append_nil, grow_stock h0]
  · have hsplit : s.held.filter (· ≠ 0) = (s.held.take m).filter (· ≠ 0) ++ (s.held.drop m).filter (· ≠ 0) := by
      rw [← List.filter_append, List.take_append_drop]
    have hparts : (((s.slots m).filter keep).map (s.held.getD · 0) ++
        ((s.slots m).filter fun i => !keep i).map (s.held.getD · 0)).Perm ((s.held.drop m).filter (· ≠ 0)) := by
      rw [← List.map_append]
      exact ((List.filter_append_perm keep _).map _).trans (s.map_slots m)
    simp only [stock, shrinkBy, hsplit, List.append_assoc]
    exact ((hparts.append_left s.free).trans List.perm_append_comm).append_left _

theorem zero_notMem_resizeBy {s : Pool α} (h0 : 0 ∉ s.free) (keep : Nat → Bool) (m : Nat) :
    0 ∉ (s.resizeBy keep m).free := by
  unfold resizeBy
  split
  · exact fun hmem => h0 (List.mem_of_mem_drop hmem)
  · simp only [shrinkBy, slots, List.mem_append, List.mem_map, List.mem_filter, not_or]
    refine ⟨h0, ?_⟩
    rintro ⟨i, ⟨⟨-, hne⟩, -⟩, hzero⟩
    exact of_decide_eq_true hne hzero

@[simp] theorem length_resizeBy (s : Pool α) (keep : Nat → Bool) (m : Nat) : (s.resizeBy keep m).held.length = m := by
  unfold resizeBy
  split
  · simp only [grow, List.length_append, List.length_map, List.length_range]
    omega
  · simp only [shrinkBy, List.length_take]
    omega

theorem resizeBy_self (s : Pool α) (keep : Nat → Bool) : s.resizeBy keep s.held.length = s := by
  simp [resizeBy, shrinkBy, slots]

theorem resizeBy_true (s : Pool α) (m : Nat) : s.resizeBy (fun _ => true) m = s.resize m := by
  unfold resizeBy resize shrinkBy shrink slots
  rw [List.filter_true, ← map_getD_drop, ← List.map_reverse, List.filter_map]
  rfl

/-- **Growing in steps** is growing at once. -/
theorem resizeBy_grow_grow {s : Pool α} (keep keep' : Nat → Bool) {n m : Nat} (hn : s.held.length ≤ n) (hm : n ≤ m) :
    (s.resizeBy keep n).resizeBy keep' m = s.resizeBy keep' m := by
  rcases Nat.eq_or_lt_of_le hn with rfl | hlt
  · rw [resizeBy_self]
  · have hlen := s.length_resizeBy keep n
    rcases Nat.eq_or_lt_of_le hm with rfl | hlt'
    · have hself := resizeBy_self (s.resizeBy keep n) keep'
      rw [hlen] at hself
      rw [hself, resizeBy_of_lt keep hlt, resizeBy_of_lt keep' hlt]
    · have hsplit : (List.range (m - s.held.length)).map (s.free.getD · 0) =
          (List.range (n - s.held.length)).map (s.free.getD · 0) ++
            (List.range (m - n)).map ((s.free.drop (n - s.held.length)).getD · 0) := by
        rw [show m - s.held.length = n - s.held.length + (m - n) by omega, List.range_add, List.map_append,
          List.map_map]
        simp [Function.comp_def, List.getD_eq_getElem?_getD, List.getElem?_drop]
      rw [resizeBy_of_lt keep' (by omega), hlen, resizeBy_of_lt keep hlt, resizeBy_of_lt keep' (by omega)]
      simp only [grow, hsplit, List.append_assoc, List.drop_drop]
      rw [show n - s.held.length + (m - n) = m - s.held.length by omega]

theorem slots_split (s : Pool α) (free : List α) {m n : Nat} (hm : m ≤ n) (hn : n ≤ s.held.length) :
    s.slots m = s.slots n ++ (Pool.mk (s.held.take n) free).slots m := by
  have hlow : (Pool.mk (s.held.take n) free).slots m =
      (List.range' m (n - m)).reverse.filter fun i => decide (s.held.getD i 0 ≠ 0) := by
    unfold slots
    rw [List.length_take, Nat.min_eq_left hn]
    refine List.filter_congr fun i hi => ?_
    have hi' := List.mem_range'_1.mp (List.mem_reverse.mp hi)
    simp only [List.getD_eq_getElem?_getD, List.getElem?_take, if_pos (show i < n by omega)]
  rw [hlow]
  unfold slots
  rw [← List.filter_append, ← List.reverse_append, show s.held.length - m = n - m + (s.held.length - n) by omega,
    ← List.range'_append_1, show m + (n - m) = n by omega]

/-- **Shrinking in steps** is shrinking at once. -/
theorem resizeBy_shrink_shrink {s : Pool α} (keep : Nat → Bool) {n m : Nat} (hm : m ≤ n) (hn : n ≤ s.held.length) :
    (s.resizeBy keep n).resizeBy keep m = s.resizeBy keep m := by
  have hlow : ∀ i ∈ (s.shrinkBy keep n).slots m, (s.shrinkBy keep n).held.getD i 0 = s.held.getD i 0 := by
    intro i hi
    have hi' := List.mem_range'_1.mp (List.mem_reverse.mp (List.mem_of_mem_filter hi))
    simp only [shrinkBy, List.length_take] at hi' ⊢
    simp only [List.getD_eq_getElem?_getD, List.getElem?_take, if_pos (show i < n by omega)]
  have hlen : ¬ (s.shrinkBy keep n).held.length < m := by
    simp only [shrinkBy, List.length_take]
    omega
  rw [resizeBy_of_le keep hn, resizeBy_of_le keep (Nat.not_lt.mp hlen), resizeBy_of_le keep (Nat.le_trans hm hn),
    shrinkBy, List.map_congr_left fun i hi => hlow i (List.mem_of_mem_filter hi)]
  simp only [shrinkBy, List.take_take, Nat.min_eq_left hm, List.append_assoc, ← List.map_append, ← List.filter_append]
  rw [← slots_split s _ hm hn]

/-- **Growing and going back** puts the frames that were taken behind the other ones, the last one first; the slots
that were made when the pool was empty give nothing back. -/
theorem resizeBy_back {s : Pool α} (h0 : 0 ∉ s.free) (keep : Nat → Bool) (d : Nat) :
    (s.resizeBy keep (s.held.length + d)).resizeBy (fun _ => true) s.held.length =
      ⟨s.held, s.free.drop d ++ (s.free.take d).reverse⟩ := by
  rcases Nat.eq_zero_or_pos d with rfl | hpos
  · rw [Nat.add_zero, resizeBy_self, resizeBy_self]
    simp
  · have htake : (s.free.take d).reverse.filter (· ≠ 0) = (s.free.take d).reverse :=
      List.filter_eq_self.mpr fun x hx =>
        decide_eq_true fun he => h0 (he ▸ List.mem_of_mem_take (List.mem_reverse.mp hx))
    rw [resizeBy_of_lt keep (show s.held.length < s.held.length + d by omega), Nat.add_sub_cancel_left, resizeBy_true,
      resize, if_neg (by simp [grow])]
    have hzeros : (List.replicate (d - s.free.length) (0 : α)).filter (· ≠ 0) = [] :=
      List.filter_eq_nil_iff.mpr fun x hx => by simp [List.eq_of_mem_replicate hx]
    simp only [grow, shrink, map_getD_range, List.take_left', List.drop_left', List.reverse_append,
      List.reverse_replicate, List.filter_append, hzeros, htake, List.nil_append]

/-! ## Runs -/

/-- Resizing, step after step, each with the slots whose frames are given back; a step returns what is lost. -/
def machine : Machine (Pool α) ((Nat → Bool) × Nat) (List α) :=
  ⟨fun s op => .ok (s.lostBy op.1 op.2, s.resizeBy op.1 op.2)⟩

/-- Where each step and the next one do what the next one alone does, a run does what its last step does. -/
theorem run_collapses {R : Nat → Nat → Prop} (htrans : ∀ a b c, R a b → R b c → R a c)
    {P : (Nat → Bool) × Nat → Prop}
    (hP : ∀ (s : Pool α) o o', P o → P o' → R s.held.length o.2 → R o.2 o'.2 →
      (s.resizeBy o.1 o.2).resizeBy o'.1 o'.2 = s.resizeBy o'.1 o'.2)
    {s : Pool α} {ops : List ((Nat → Bool) × Nat)} {op : (Nat → Bool) × Nat} (hops : ∀ o ∈ ops ++ [op], P o)
    (hway : List.IsChain R (s.held.length :: (ops ++ [op]).map Prod.snd)) :
    ∃ lost, machine.run s (ops ++ [op]) = .ok (lost, s.resizeBy op.1 op.2) := by
  induction ops generalizing s with
  | nil => exact ⟨_, (machine.run_cons_ok).mpr ⟨_, _, [], rfl, rfl, rfl⟩⟩
  | cons o ops ih =>
    obtain ⟨hstep, hrest⟩ := List.isChain_cons_cons.mp hway
    have : IsTrans Nat R := ⟨htrans⟩
    have hlast : R o.2 op.2 := (List.pairwise_cons.mp hrest.pairwise).1 op.2 (by simp)
    obtain ⟨lost, hrun⟩ := ih (s := s.resizeBy o.1 o.2) (fun x hx => hops x (by simp [hx]))
      (by rwa [length_resizeBy])
    rw [hP s o op (hops o (by simp)) (hops op (by simp)) hstep hlast] at hrun
    exact ⟨_, (machine.run_cons_ok).mpr ⟨_, _, lost, rfl, hrun, rfl⟩⟩

/-- **Up**: a run that never goes down does what its last step does. -/
theorem run_up {s : Pool α} {ops : List ((Nat → Bool) × Nat)} {op : (Nat → Bool) × Nat}
    (hup : List.IsChain (· ≤ ·) (s.held.length :: (ops ++ [op]).map Prod.snd)) :
    ∃ lost, machine.run s (ops ++ [op]) = .ok (lost, s.resizeBy op.1 op.2) :=
  run_collapses (R := (· ≤ ·)) (fun _ _ _ => Nat.le_trans) (P := fun _ => True)
    (fun _ _ _ _ _ h1 h2 => resizeBy_grow_grow _ _ h1 h2) (fun _ _ => trivial) hup

/-- **Down**: so does a run that never goes up, where each step loses the same slots. -/
theorem run_down {s : Pool α} {ops : List ((Nat → Bool) × Nat)} {op : (Nat → Bool) × Nat}
    (hkeep : ∀ o ∈ ops ++ [op], o.1 = op.1)
    (hdown : List.IsChain (· ≥ ·) (s.held.length :: (ops ++ [op]).map Prod.snd)) :
    ∃ lost, machine.run s (ops ++ [op]) = .ok (lost, s.resizeBy op.1 op.2) :=
  run_collapses (R := (· ≥ ·)) (fun _ _ _ h1 h2 => Nat.le_trans h2 h1) (P := fun o => o.1 = op.1)
    (fun _ o o' h h' h1 h2 => by
      rw [h, h']
      exact resizeBy_shrink_shrink _ h2 h1) hkeep hdown

/-- **Up and back**: a run up and a run down to where it began, where nothing is lost, puts the frames that were taken
behind the other ones, the last one first. -/
theorem run_back {s : Pool α} (h0 : 0 ∉ s.free) {ups downs : List ((Nat → Bool) × Nat)}
    {top bottom : (Nat → Bool) × Nat}
    (hup : List.IsChain (· ≤ ·) (s.held.length :: (ups ++ [top]).map Prod.snd))
    (hdown : List.IsChain (· ≥ ·) (top.2 :: (downs ++ [bottom]).map Prod.snd))
    (hkeep : ∀ o ∈ downs ++ [bottom], o.1 = fun _ => true) (hback : bottom.2 = s.held.length) :
    ∃ lost, machine.run s (ups ++ [top] ++ (downs ++ [bottom])) = .ok (lost, ⟨s.held,
      s.free.drop (top.2 - s.held.length) ++ (s.free.take (top.2 - s.held.length)).reverse⟩) := by
  have htop : s.held.length ≤ top.2 := by
    have : IsTrans Nat (· ≤ ·) := ⟨fun _ _ _ => Nat.le_trans⟩
    exact (List.pairwise_cons.mp hup.pairwise).1 top.2 (by simp)
  obtain ⟨lost, hrun⟩ := run_up hup
  obtain ⟨lost', hrun'⟩ := run_down (s := s.resizeBy top.1 top.2)
    (fun o ho => (hkeep o ho).trans (hkeep bottom (by simp)).symm) (by rwa [length_resizeBy])
  have hboth := resizeBy_back h0 top.1 (top.2 - s.held.length)
  rw [Nat.add_sub_cancel' htop] at hboth
  rw [hkeep bottom (by simp), hback, hboth] at hrun'
  exact ⟨_, machine.run_append_ok hrun hrun'⟩

/-- **The ledger of a run.** -/
theorem ledger {s t : Pool α} {ops : List ((Nat → Bool) × Nat)} {lost : List (List α)} (h0 : 0 ∉ s.free)
    (hrun : machine.run s ops = .ok (lost, t)) : (t.stock ++ lost.flatten).Perm s.stock := by
  induction ops generalizing s lost with
  | nil =>
    cases hrun
    simp
  | cons op ops ih =>
    obtain ⟨r, u, rs, hs, hr, rfl⟩ := (machine.run_cons_ok).mp hrun
    cases hs
    have hrest := ih (zero_notMem_resizeBy h0 _ _) hr
    rw [List.flatten_cons, ← List.append_assoc]
    calc t.stock ++ s.lostBy op.1 op.2 ++ rs.flatten
        |>.Perm (t.stock ++ rs.flatten ++ s.lostBy op.1 op.2) := by
          simpa only [List.append_assoc] using (List.perm_append_comm).append_left t.stock
      _ |>.Perm ((s.resizeBy op.1 op.2).stock ++ s.lostBy op.1 op.2) := hrest.append_right _
      _ |>.Perm s.stock := resizeBy_stock h0 _ _

end Pool
end Prog
