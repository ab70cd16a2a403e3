import MooseOS.Lib.While

/-!
# Chains of nodes in a heap

A heap is a partial map from addresses to nodes, and `next` names a link of a node. `Seg h next p ns q` says that
following the link from `p` visits exactly the nodes `ns`, each with its address, and arrives at `q`.

* `Seg.append_iff`, `Seg.concat_iff` : a segment is the segments of its parts;
* `Seg.frame` : a segment depends on its own cells only;
* `Seg.update_last`, `Seg.update_head` : changing the node at an end;
* `TwoWay h next prev null f b ns` : from `f` the links `next` lead through `ns` to `null`, from `b` the links `prev`
  lead through them in reverse, and no other node is live;
* `TwoWay.single`, `TwoWay.push`, `TwoWay.pop`, `TwoWay.pop_only` : adding a node at the back, removing one in front.
-/

namespace Prog

variable {A N : Type}

/-- A heap of nodes: `none` is an address that is not allocated. -/
abbrev Heap (A N : Type) := A → Option N

def deref (h : Heap A N) (p : A) : Exec N :=
  match h p with
  | none => .error .stray
  | some n => .ok n

theorem deref_some {h : Heap A N} {p : A} {n : N} (hp : h p = some n) : deref h p = .ok n := by
  simp [deref, hp]

/-- From `p`, the links lead through the nodes `ns` to `q`. -/
def Seg (h : Heap A N) (next : N → A) : A → List (A × N) → A → Prop
  | p, [], q => p = q
  | p, x :: ns, q => p = x.1 ∧ h x.1 = some x.2 ∧ Seg h next (next x.2) ns q

namespace Seg
variable {h h' : Heap A N} {next : N → A} {p q : A} {ns ms : List (A × N)}

theorem append_iff : Seg h next p (ns ++ ms) q ↔ ∃ m, Seg h next p ns m ∧ Seg h next m ms q := by
  induction ns generalizing p with
  | nil => simp [Seg]
  | cons x ns ih =>
    simp only [List.cons_append, Seg, ih]
    constructor
    · intro ⟨hp, hx, m, h₁, h₂⟩
      exact ⟨m, ⟨hp, hx, h₁⟩, h₂⟩
    · intro ⟨m, ⟨hp, hx, h₁⟩, h₂⟩
      exact ⟨hp, hx, m, h₁, h₂⟩

theorem concat_iff {x : A × N} :
    Seg h next p (ns ++ [x]) q ↔ Seg h next p ns x.1 ∧ h x.1 = some x.2 ∧ next x.2 = q := by
  rw [append_iff]
  constructor
  · rintro ⟨m, h₁, rfl, hx, hq⟩
    exact ⟨h₁, hx, hq⟩
  · intro ⟨h₁, hx, hq⟩
    exact ⟨x.1, h₁, rfl, hx, hq⟩

theorem mem (hs : Seg h next p ns q) {x : A × N} (hx : x ∈ ns) : h x.1 = some x.2 := by
  induction ns generalizing p with
  | nil => cases hx
  | cons y ns ih =>
    obtain ⟨-, hy, hrest⟩ := hs
    rcases List.mem_cons.mp hx with rfl | hx
    · exact hy
    · exact ih hrest hx

theorem frame (hs : Seg h next p ns q) (hag : ∀ x ∈ ns, h' x.1 = h x.1) : Seg h' next p ns q := by
  induction ns generalizing p with
  | nil => exact hs
  | cons x ns ih =>
    obtain ⟨hp, hx, hrest⟩ := hs
    exact ⟨hp, by rw [hag x (by simp), hx], ih hrest fun y hy => hag y (by simp [hy])⟩

variable [DecidableEq A]

theorem update_of_notMem (hs : Seg h next p ns q) {a : A} (ha : a ∉ ns.map Prod.fst) (o : Option N) :
    Seg (Function.update h a o) next p ns q :=
  hs.frame fun x hx => Function.update_of_ne (fun he => ha (by rw [← he]; exact List.mem_map_of_mem hx)) _ _

/-- Storing a node at the last address of a segment leads the segment to that node's link. -/
theorem update_last {a : A} {n : N} (hs : Seg h next p (ns ++ [(a, n)]) q) (n' : N) (ha : a ∉ ns.map Prod.fst) :
    Seg (Function.update h a (some n')) next p (ns ++ [(a, n')]) (next n') := by
  obtain ⟨h₁, -, -⟩ := concat_iff.mp hs
  exact concat_iff.mpr ⟨h₁.update_of_notMem ha _, Function.update_self .., rfl⟩

theorem update_head {a : A} {n : N} (hs : Seg h next p ((a, n) :: ns) q) (n' : N) (ha : a ∉ ns.map Prod.fst)
    (hn : next n' = next n) : Seg (Function.update h a (some n')) next p ((a, n') :: ns) q := by
  obtain ⟨hp, -, hrest⟩ := hs
  exact ⟨hp, Function.update_self .., by rw [hn]; exact hrest.update_of_notMem ha _⟩

end Seg

/-! ## Nodes linked both ways -/

/-- The live nodes are `ns`, in order between `f` and `b`, and each link `prev` undoes a link `next`. -/
structure TwoWay (h : Heap A N) (next prev : N → A) (null f b : A) (ns : List (A × N)) : Prop where
  next : Seg h next f ns null
  prev : Seg h prev b ns.reverse null
  nodup : (ns.map Prod.fst).Nodup
  nonNull : null ∉ ns.map Prod.fst
  live : ∀ a, h a ≠ none ↔ a ∈ ns.map Prod.fst

namespace TwoWay
variable {h : Heap A N} {next prev : N → A} {null f b : A} {ns : List (A × N)}

theorem front_eq (hw : TwoWay h next prev null f b ns) : f = (ns.map Prod.fst).headD null := by
  cases ns with
  | nil => exact hw.next
  | cons x ns => exact hw.next.1

theorem back_eq (hw : TwoWay h next prev null f b ns) : b = (ns.map Prod.fst).getLastD null := by
  have hp := hw.prev
  rcases List.eq_nil_or_concat ns with rfl | ⟨ms, x, rfl⟩
  · exact hp
  · simp only [List.concat_eq_append, List.reverse_append, List.reverse_cons, List.reverse_nil, List.nil_append,
      List.singleton_append] at hp
    simp [hp.1]

theorem front_eq_null (hw : TwoWay h next prev null f b ns) : f = null ↔ ns = [] := by
  rw [hw.front_eq]
  have hnn := hw.nonNull
  cases ns with
  | nil => simp
  | cons x ns =>
    simp only [List.map_cons, List.mem_cons, not_or] at hnn
    simpa using Ne.symm hnn.1

theorem back_eq_null (hw : TwoWay h next prev null f b ns) : b = null ↔ ns = [] := by
  rw [hw.back_eq]
  have hnn := hw.nonNull
  rcases List.eq_nil_or_concat ns with rfl | ⟨ms, x, rfl⟩
  · simp
  · simp only [List.concat_eq_append, List.map_append, List.map_cons, List.map_nil, List.mem_append,
      List.mem_singleton, not_or] at hnn
    simpa using Ne.symm hnn.2

theorem notMem_of_free (hw : TwoWay h next prev null f b ns) {a : A} (ha : h a = none) : a ∉ ns.map Prod.fst :=
  fun hmem => (hw.live a).mpr hmem ha

theorem empty (next prev : N → A) (null : A) : TwoWay (fun _ => none) next prev null null null [] :=
  ⟨rfl, rfl, List.nodup_nil, List.not_mem_nil, fun _ => by simp⟩

variable [DecidableEq A]

theorem live_update {h : Heap A N} {P : A → Prop} (hl : ∀ a, h a ≠ none ↔ P a) (a : A) (n : N) (c : A) :
    Function.update h a (some n) c ≠ none ↔ c = a ∨ P c := by
  by_cases hca : c = a
  · simp [hca]
  · rw [Function.update_of_ne hca, hl]
    simp [hca]

theorem single (hw : TwoWay h next prev null f b []) (m : N) {a : A} (ha : a ≠ null) (hm : next m = null)
    (hp : prev m = null) : TwoWay (Function.update h a (some m)) next prev null a a [(a, m)] :=
  ⟨⟨rfl, Function.update_self .., hm⟩, ⟨rfl, Function.update_self .., hp⟩, by simp, by simpa using ha.symm,
    fun c => by rw [live_update hw.live]; simp⟩

/-- A node `m` behind the last node `n`, which is linked to it and is then `n'`. -/
theorem push {n : N} (hw : TwoWay h next prev null f b (ns ++ [(b, n)])) (n' m : N) {a : A} (hfree : h a = none)
    (ha : a ≠ null) (hn : next n' = a) (hpn : prev n' = prev n) (hm : next m = null) (hpm : prev m = b) :
    TwoWay (Function.update (Function.update h b (some n')) a (some m)) next prev null f a
      (ns ++ [(b, n')] ++ [(a, m)]) := by
  have hout := hw.notMem_of_free hfree
  have hnd := hw.nodup
  have hnn := hw.nonNull
  simp only [List.map_append, List.map_cons, List.map_nil] at hout hnd hnn
  obtain ⟨hnd', -, hdisj⟩ := List.nodup_append.mp hnd
  have hb : b ∉ ns.map Prod.fst := fun hmem => hdisj b hmem b (by simp) rfl
  have hout' : a ∉ (ns ++ [(b, n')]).map Prod.fst := by simpa using hout
  refine ⟨?_, ?_, ?_, ?_, ?_⟩
  · refine Seg.concat_iff.mpr ⟨?_, Function.update_self .., hm⟩
    have hseg := hw.next.update_last n' hb
    rw [hn] at hseg
    exact hseg.update_of_notMem hout' _
  · have hrev : Seg h prev b ((b, n) :: ns.reverse) null := by simpa using hw.prev
    have hseg : Seg (Function.update h b (some n')) prev b ((b, n') :: ns.reverse) null :=
      hrev.update_head n' (by simpa using hb) hpn
    have hseg' : Seg (Function.update h b (some n')) prev (prev m) ((b, n') :: ns.reverse) null := by
      rw [hpm]
      exact hseg
    have hall : a ∉ ((b, n') :: ns.reverse).map Prod.fst := by simpa [or_comm] using hout
    simpa using (show Seg _ prev a ((a, m) :: (b, n') :: ns.reverse) null from
      ⟨rfl, Function.update_self .., hseg'.update_of_notMem hall _⟩)
  · rw [List.map_append]
    refine List.nodup_append.mpr ⟨by simpa using hnd, by simp, ?_⟩
    intro x hx y hy he
    simp only [List.map_cons, List.map_nil, List.mem_singleton] at hy
    exact hout' (by rwa [← hy, ← he])
  · rw [List.map_append, List.mem_append, not_or]
    exact ⟨by simpa using hnn, by simpa using ha.symm⟩
  · intro c
    rw [live_update (live_update hw.live b n')]
    simp only [List.map_append, List.map_cons, List.map_nil, List.mem_append, List.mem_singleton]
    tauto

/-- The node in front goes, and the link of the second one, which is then `y'`, to it. -/
theorem pop {g : A} {x y y' : N} (hw : TwoWay h next prev null f b ((f, x) :: (g, y) :: ns))
    (hy : next y' = next y) (hpy : prev y' = null) :
    TwoWay (Function.update (Function.update h g (some y')) f none) next prev null g b ((g, y') :: ns) := by
  have hnd := hw.nodup
  have hnn := hw.nonNull
  simp only [List.map_cons, List.nodup_cons, List.mem_cons, not_or] at hnd hnn
  obtain ⟨⟨hfg, hfm⟩, hgm, hms⟩ := hnd
  have hf : f ∉ ((g, y') :: ns).map Prod.fst := by simp [hfg, hfm]
  refine ⟨?_, ?_, ?_, ?_, ?_⟩
  · obtain ⟨-, -, hrest⟩ := hw.next
    obtain rfl : next x = g := hrest.1
    exact (hrest.update_head y' hgm hy).update_of_notMem hf _
  · have hrev : Seg h prev b (ns.reverse ++ [(g, y)] ++ [(f, x)]) null := by simpa using hw.prev
    have hseg := (Seg.concat_iff.mp hrev).1.update_last y' (by simpa using hgm)
    rw [hpy] at hseg
    simpa using hseg.update_of_notMem (by simp [hfg, hfm]) none
  · simp [hgm, hms]
  · simp [hnn.2.1, hnn.2.2]
  · intro c
    by_cases hcf : c = f
    · rw [hcf, Function.update_self]
      exact iff_of_false (by simp) hf
    · rw [Function.update_of_ne hcf, live_update hw.live]
      simp [hcf]

theorem pop_only {x : N} (hw : TwoWay h next prev null f b [(f, x)]) :
    TwoWay (Function.update h f none) next prev null null null [] := by
  refine ⟨rfl, rfl, List.nodup_nil, List.not_mem_nil, fun c => ?_⟩
  by_cases hcf : c = f
  · simp [hcf]
  · rw [Function.update_of_ne hcf, hw.live]
    simp [hcf]

end TwoWay

end Prog
