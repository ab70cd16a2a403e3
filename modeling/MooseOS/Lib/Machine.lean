import MooseOS.Lib.While

/-!
# Runs of a component, and of two components side by side

* `Machine σ Op Res` : a component with states `σ`, driven by operations that return results;
* `Machine.run` : a finite sequence of operations from a state, with the list of results;
* `Machine.run_total` : an invariant that every step keeps holds after every run, and no run faults;
* `Machine.run_inv` : an invariant that every step which succeeds keeps holds after every run that succeeds;
* `Machine.run_ok_iff` : where the invariant decides which steps succeed, it decides which runs do;
* `Machine.run_results_iff` : where it decides which results are good, it decides which runs give good ones only;
* `Machine.run_trace` : the same for a relation between the state and the whole history;
* `Machine.run_simulates` : a component whose steps are those of another one under a map of the states;
* `Machine.Guarded`, `Machine.Lockstep` : two components run side by side, under a guard or with equal results;
* `Machine.Guarded.run` : a simulation of the steps is one of the runs;
* `Machine.lockstep_iff_guarded` : an exact condition for one step lifts to an exact condition for runs.
-/

namespace Prog

/-- A component that answers operations and changes its state. -/
structure Machine (σ Op Res : Type) where
  step : σ → Op → Exec (Res × σ)

namespace Machine
variable {σ τ Op Res : Type}

def run (M : Machine σ Op Res) : σ → List Op → Exec (List Res × σ)
  | s, [] => .ok ([], s)
  | s, op :: ops => do
    let r ← M.step s op
    let rs ← M.run r.2 ops
    .ok (r.1 :: rs.1, rs.2)

variable (M : Machine σ Op Res)

@[simp] theorem run_nil (s : σ) : M.run s [] = .ok ([], s) := rfl

theorem run_cons_ok {s t : σ} {op : Op} {ops : List Op} {rs : List Res} :
    M.run s (op :: ops) = .ok (rs, t) ↔
      ∃ r u rs', M.step s op = .ok (r, u) ∧ M.run u ops = .ok (rs', t) ∧ rs = r :: rs' := by
  simp only [run, bind_eq_ok, Except.ok.injEq, Prod.mk.injEq, Prod.exists]
  constructor
  · rintro ⟨r, u, h1, rs', t', h2, rfl, rfl⟩
    exact ⟨r, u, rs', h1, h2, rfl⟩
  · rintro ⟨r, u, rs', h1, h2, rfl⟩
    exact ⟨r, u, h1, rs', t, h2, rfl, rfl⟩

theorem run_cons_of_step {s u : σ} {op : Op} {ops : List Op} {r : Res} (h : M.step s op = .ok (r, u)) :
    M.run s (op :: ops) = M.run u ops >>= fun rs => .ok (r :: rs.1, rs.2) := by
  simp only [run, h, ok_bind]

theorem run_append_ok {s t u : σ} {ops₁ ops₂ : List Op} {rs₁ rs₂ : List Res}
    (h₁ : M.run s ops₁ = .ok (rs₁, t)) (h₂ : M.run t ops₂ = .ok (rs₂, u)) :
    M.run s (ops₁ ++ ops₂) = .ok (rs₁ ++ rs₂, u) := by
  induction ops₁ generalizing s rs₁ with
  | nil => cases h₁; exact h₂
  | cons op ops ih =>
    obtain ⟨r, v, rs', hs, hr, rfl⟩ := (M.run_cons_ok).mp h₁
    exact (M.run_cons_ok).mpr ⟨r, v, rs' ++ rs₂, hs, ih hr, rfl⟩

/-- **Safety over runs**: when every step from the invariant succeeds and keeps it, every run does. -/
theorem run_total (P : Op → Prop) (I : σ → Prop)
    (hstep : ∀ s op, I s → P op → ∃ r t, M.step s op = .ok (r, t) ∧ I t) :
    ∀ (ops : List Op) (s : σ), (∀ op ∈ ops, P op) → I s → ∃ rs t, M.run s ops = .ok (rs, t) ∧ I t := by
  intro ops
  induction ops with
  | nil => intro s _ hI; exact ⟨[], s, rfl, hI⟩
  | cons op ops ih =>
    intro s hP hI
    obtain ⟨r, t, hs, ht⟩ := hstep s op hI (hP op (by simp))
    obtain ⟨rs, u, hr, hu⟩ := ih t (fun o ho => hP o (by simp [ho])) ht
    exact ⟨r :: rs, u, (M.run_cons_ok).mpr ⟨r, t, rs, hs, hr, rfl⟩, hu⟩

/-- **Invariants**: what every step that succeeds keeps, every run that succeeds keeps. -/
theorem run_inv (I : σ → Prop) (hstep : ∀ s op r t, I s → M.step s op = .ok (r, t) → I t) :
    ∀ (ops : List Op) (s : σ) (rs : List Res) (t : σ), M.run s ops = .ok (rs, t) → I s → I t := by
  intro ops
  induction ops with
  | nil => intro s rs t h hI; cases h; exact hI
  | cons op ops ih =>
    intro s rs t h hI
    obtain ⟨r, u, rs', hs, hr, -⟩ := (M.run_cons_ok).mp h
    exact ih u rs' t hr (hstep s op r u hI hs)

/-- **Exact success**: when, from the invariant, a step succeeds exactly for the operations of `P`, and keeps it then,
a run succeeds exactly if all its operations are such. -/
theorem run_ok_iff (P : Op → Prop) (I : σ → Prop)
    (hiff : ∀ s op, I s → ((∃ r t, M.step s op = .ok (r, t)) ↔ P op))
    (hstep : ∀ s op r t, I s → M.step s op = .ok (r, t) → I t) :
    ∀ (ops : List Op) (s : σ), I s → ((∃ rs t, M.run s ops = .ok (rs, t)) ↔ ∀ op ∈ ops, P op) := by
  intro ops
  induction ops with
  | nil => exact fun s _ => iff_of_true ⟨[], s, rfl⟩ (by simp)
  | cons op ops ih =>
    intro s hI
    rw [List.forall_mem_cons]
    constructor
    · rintro ⟨rs, t, hrun⟩
      obtain ⟨r, u, rs', hs, hr, -⟩ := (M.run_cons_ok).mp hrun
      exact ⟨(hiff s op hI).mp ⟨r, u, hs⟩, (ih u (hstep s op r u hI hs)).mp ⟨rs', t, hr⟩⟩
    · rintro ⟨hop, hops⟩
      obtain ⟨r, u, hs⟩ := (hiff s op hI).mpr hop
      obtain ⟨rs', t, hr⟩ := (ih u (hstep s op r u hI hs)).mpr hops
      exact ⟨r :: rs', t, (M.run_cons_ok).mpr ⟨r, u, rs', hs, hr, rfl⟩⟩

/-- **Exact results**: when, from the invariant, the operations of `P` give results of `Q` and keep it, and the other
ones give other results and leave a state from which every step succeeds, a run gives results of `Q` only exactly if
all its operations are such. -/
theorem run_results_iff (P : Op → Prop) (I J : σ → Prop) (Q : Res → Prop)
    (hgood : ∀ s op, I s → P op → ∃ r t, M.step s op = .ok (r, t) ∧ Q r ∧ I t)
    (hbad : ∀ s op, I s → ¬ P op → ∃ r t, M.step s op = .ok (r, t) ∧ ¬ Q r ∧ J t)
    (htotal : ∀ s op, J s → ∃ r t, M.step s op = .ok (r, t) ∧ J t) :
    ∀ (ops : List Op) (s : σ), I s →
      ∃ rs t, M.run s ops = .ok (rs, t) ∧ ((∀ r ∈ rs, Q r) ↔ ∀ op ∈ ops, P op) := by
  intro ops
  induction ops with
  | nil => exact fun s _ => ⟨[], s, rfl, by simp⟩
  | cons op ops ih =>
    intro s hI
    by_cases hop : P op
    · obtain ⟨r, u, hs, hr, hu⟩ := hgood s op hI hop
      obtain ⟨rs, t, hrun, hiff⟩ := ih u hu
      exact ⟨r :: rs, t, (M.run_cons_ok).mpr ⟨r, u, rs, hs, hrun, rfl⟩, by simp [hr, hop, hiff]⟩
    · obtain ⟨r, u, hs, hr, hu⟩ := hbad s op hI hop
      obtain ⟨rs, t, hrun, -⟩ := M.run_total (fun _ => True) J (fun s op hs _ => htotal s op hs) ops u (by simp) hu
      exact ⟨r :: rs, t, (M.run_cons_ok).mpr ⟨r, u, rs, hs, hrun, rfl⟩, by simp [hr, hop]⟩

/-- **Histories**: a relation between the past operations with their results and the state, kept by
every step, holds after every run. -/
theorem run_trace (P : Op → Res → Prop) (I : List (Op × Res) → σ → Prop)
    (hstep : ∀ tr s op r t, I tr s → P op r → M.step s op = .ok (r, t) → I (tr ++ [(op, r)]) t) :
    ∀ (ops : List Op) (tr : List (Op × Res)) (s : σ) (rs : List Res) (t : σ),
      M.run s ops = .ok (rs, t) → (∀ x ∈ ops.zip rs, P x.1 x.2) → I tr s → I (tr ++ ops.zip rs) t := by
  intro ops
  induction ops with
  | nil => intro tr s rs t h _ hI; cases h; simpa using hI
  | cons op ops ih =>
    intro tr s rs t h hP hI
    obtain ⟨r, u, rs', hs, hr, rfl⟩ := (M.run_cons_ok).mp h
    have hI' : I (tr ++ [(op, r)]) u := hstep tr s op r u hI (hP (op, r) (by simp)) hs
    have := ih (tr ++ [(op, r)]) u rs' t hr (fun x hx => hP x (by simp [hx])) hI'
    simpa using this

/-- **Functional simulation**: where, from the invariant, each step is one of `A` under a map of states, operations and
results, so is each run. -/
theorem run_simulates {Op' Res' : Type} (A : Machine τ Op' Res') (P : Op → Prop) (I : σ → Prop) (Q : Res → Prop)
    (f : σ → τ) (g : Op → Op') (h : Res → Res')
    (hstep : ∀ s op, I s → P op →
      ∃ r t, M.step s op = .ok (r, t) ∧ I t ∧ Q r ∧ A.step (f s) (g op) = .ok (h r, f t)) :
    ∀ (ops : List Op) (s : σ), (∀ op ∈ ops, P op) → I s → ∃ rs t, M.run s ops = .ok (rs, t) ∧ I t ∧
      (∀ r ∈ rs, Q r) ∧ A.run (f s) (ops.map g) = .ok (rs.map h, f t) := by
  intro ops
  induction ops with
  | nil => exact fun s _ hI => ⟨[], s, rfl, hI, by simp, rfl⟩
  | cons op ops ih =>
    intro s hP hI
    obtain ⟨r, t, hs, ht, hr, ha⟩ := hstep s op hI (hP op (by simp))
    obtain ⟨rs, u, hrun, hu, hrs, harun⟩ := ih t (fun o ho => hP o (by simp [ho])) ht
    refine ⟨r :: rs, u, (M.run_cons_ok).mpr ⟨r, t, rs, hs, hrun, rfl⟩, hu, ?_, ?_⟩
    · simpa using ⟨hr, hrs⟩
    · exact (A.run_cons_ok).mpr ⟨h r, f t, rs.map h, ha, harun, rfl⟩

section Lockstep
variable (C : Machine σ Op Res) (A : Machine τ Op Res)

/-- `G` holds before every step of the run of `C`, taken side by side with the run of `A`. -/
def Guarded (G : σ → τ → Op → Prop) : σ → τ → List Op → Prop
  | _, _, [] => True
  | s, t, op :: ops => G s t op ∧ ∀ r s' r' t', C.step s op = .ok (r, s') → A.step t op = .ok (r', t') →
      Guarded G s' t' ops

/-- `C` and `A` take every step with the same result, and `Q` relates the states between the steps. -/
def Lockstep (Q : σ → τ → Prop) : σ → τ → List Op → Prop
  | s, t, [] => Q s t
  | s, t, op :: ops => Q s t ∧ ∃ r s' t', C.step s op = .ok (r, s') ∧ A.step t op = .ok (r, t') ∧
      Lockstep Q s' t' ops

theorem Lockstep.head {Q : σ → τ → Prop} {s : σ} {t : τ} {ops : List Op} (h : Lockstep C A Q s t ops) : Q s t := by
  cases ops with
  | nil => exact h
  | cons op ops => exact h.1

theorem Lockstep.run {Q : σ → τ → Prop} {s : σ} {t : τ} {ops : List Op} (h : Lockstep C A Q s t ops) :
    ∃ rs s' t', C.run s ops = .ok (rs, s') ∧ A.run t ops = .ok (rs, t') ∧ Q s' t' := by
  induction ops generalizing s t with
  | nil => exact ⟨[], s, t, rfl, rfl, h⟩
  | cons op ops ih =>
    obtain ⟨-, r, s', t', hs, ht, hrest⟩ := h
    obtain ⟨rs, s'', t'', hs', ht', hq⟩ := ih hrest
    exact ⟨r :: rs, s'', t'', (C.run_cons_ok).mpr ⟨r, s', rs, hs, hs', rfl⟩,
      (A.run_cons_ok).mpr ⟨r, t', rs, ht, ht', rfl⟩, hq⟩

theorem guarded_cons {G : σ → τ → Op → Prop} {s s' : σ} {t t' : τ} {op : Op} {ops : List Op} {r r' : Res}
    (hs : C.step s op = .ok (r, s')) (ht : A.step t op = .ok (r', t')) :
    Guarded C A G s t (op :: ops) ↔ G s t op ∧ Guarded C A G s' t' ops := by
  simp only [Guarded]
  constructor
  · exact fun h => ⟨h.1, h.2 r s' r' t' hs ht⟩
  · intro ⟨hg, hrest⟩
    refine ⟨hg, fun r₁ s₁ r₂ t₂ h₁ h₂ => ?_⟩
    rw [hs] at h₁
    rw [ht] at h₂
    cases h₁
    cases h₂
    exact hrest

/-- **Simulation**: where, in states related by `R`, a step with environment `E` is taken alike and keeps `R`, a run
in that environment is. -/
theorem Guarded.run {E : σ → τ → Op → Prop} (R : σ → τ → Prop)
    (hstep : ∀ s t op, R s t → E s t op →
      ∃ r s' t', C.step s op = .ok (r, s') ∧ A.step t op = .ok (r, t') ∧ R s' t') :
    ∀ {ops : List Op} {s : σ} {t : τ}, Guarded C A E s t ops → R s t →
      ∃ rs s' t', C.run s ops = .ok (rs, s') ∧ A.run t ops = .ok (rs, t') ∧ R s' t' := by
  intro ops
  induction ops with
  | nil => exact fun _ hR => ⟨[], _, _, rfl, rfl, hR⟩
  | cons op ops ih =>
    intro s t hE hR
    obtain ⟨r, s', t', hs, ht, hR'⟩ := hstep s t op hR hE.1
    obtain ⟨rs, s'', t'', hs', ht', hR''⟩ := ih (hE.2 r s' r t' hs ht) hR'
    exact ⟨r :: rs, s'', t'', (C.run_cons_ok).mpr ⟨r, s', rs, hs, hs', rfl⟩,
      (A.run_cons_ok).mpr ⟨r, t', rs, ht, ht', rfl⟩, hR''⟩

/-- **Exact simulation**: where, in states related by `R`, a step with environment `E` is taken alike exactly under
the guard `G`, the runs are in lockstep exactly when they are guarded by `G`. -/
theorem lockstep_iff_guarded (R Q : σ → τ → Prop) (E G : σ → τ → Op → Prop) (hQ : ∀ s t, R s t → Q s t)
    (hiff : ∀ s t op, R s t → E s t op →
      ((∃ r s' t', C.step s op = .ok (r, s') ∧ A.step t op = .ok (r, t') ∧ Q s' t') ↔ G s t op))
    (hkeep : ∀ s t op r s' t', R s t → E s t op → G s t op → C.step s op = .ok (r, s') → A.step t op = .ok (r, t') →
      R s' t') :
    ∀ (ops : List Op) (s : σ) (t : τ), R s t → Guarded C A E s t ops →
      (Lockstep C A Q s t ops ↔ Guarded C A G s t ops) := by
  intro ops
  induction ops with
  | nil => exact fun s t hR _ => iff_of_true (hQ s t hR) trivial
  | cons op ops ih =>
    intro s t hR hE
    constructor
    · rintro ⟨-, r, s', t', hs, ht, hrest⟩
      have hG := (hiff s t op hR hE.1).mp ⟨r, s', t', hs, ht, hrest.head⟩
      exact (guarded_cons C A hs ht).mpr
        ⟨hG, (ih s' t' (hkeep s t op r s' t' hR hE.1 hG hs ht) (hE.2 r s' r t' hs ht)).mp hrest⟩
    · intro hG
      obtain ⟨r, s', t', hs, ht, -⟩ := (hiff s t op hR hE.1).mpr hG.1
      exact ⟨hQ s t hR, r, s', t', hs, ht,
        (ih s' t' (hkeep s t op r s' t' hR hE.1 hG.1 hs ht) (hE.2 r s' r t' hs ht)).mpr (hG.2 r s' r t' hs ht)⟩

end Lockstep

end Machine
end Prog
