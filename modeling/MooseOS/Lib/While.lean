import Mathlib.Tactic

/-!
# Loops over an explicit state

* `Exec α` : the outcome of a piece of imperative code, a value or the `Fault` that stopped it;
* `whileLoop c b fuel s` : `while (c s) s = b s`, cut off after `fuel` tests of the condition;
* `whileLoop_total` : the rule for total correctness (an invariant and a decreasing measure);
* `whileLoop_inv` : the rule for partial correctness;
* `whileLoop_endless` : a loop whose condition never fails ends for no bound;
* `whileLoop_fault` : a loop whose condition never fails, and whose turns come down to one that faults;
* `whileLoop_simulates` : a loop whose turns are those of another one;
* `Visits c b s t` : the loop from `s` passes through `t`; `Visits.inv` is the rule for what holds on the way;
* `loopTurns c b fuel s` : the states in which it takes its turns; `mem_loopTurns` is the rule for them.
-/

namespace Prog

/-- Why a piece of code stops short of its result. -/
inductive Fault where
  /-- an access outside every live block -/
  | stray
  /-- a loop that is still running when its bound on turns is used up -/
  | endless
deriving DecidableEq, Repr

abbrev Exec (α : Type) := Except Fault α

@[simp] theorem ok_bind {α β : Type} (a : α) (f : α → Exec β) : ((.ok a : Exec α) >>= f) = f a := rfl

@[simp] theorem error_bind {α β : Type} (e : Fault) (f : α → Exec β) :
    ((.error e : Exec α) >>= f) = .error e := rfl

theorem bind_eq_ok {α β : Type} {x : Exec α} {f : α → Exec β} {b : β} :
    x >>= f = .ok b ↔ ∃ a, x = .ok a ∧ f a = .ok b := by
  cases x with
  | error e => simp
  | ok a => simp

section While
variable {σ : Type} (c : σ → Bool) (b : σ → Exec σ)

/-- `while (c s) s = b s`, with at most `fuel` tests of the condition. -/
def whileLoop : Nat → σ → Exec σ
  | 0, _ => .error .endless
  | fuel + 1, s => if c s then b s >>= whileLoop fuel else .ok s

theorem whileLoop_done {fuel : Nat} {s : σ} (hs : c s = false) (hfuel : 0 < fuel) :
    whileLoop c b fuel s = .ok s := by
  obtain ⟨n, rfl⟩ : ∃ n, fuel = n + 1 := ⟨fuel - 1, by omega⟩
  simp [whileLoop, hs]

theorem whileLoop_turn {fuel : Nat} {s t : σ} (hs : c s = true) (hb : b s = .ok t) :
    whileLoop c b (fuel + 1) s = whileLoop c b fuel t := by
  simp [whileLoop, hs, hb]

/-- **Total correctness**: each turn keeps the invariant and lowers the measure, so the loop ends
within the bound, in a state of the invariant where the condition fails. -/
theorem whileLoop_total (I : σ → Prop) (m : σ → Nat)
    (hstep : ∀ s, I s → c s = true → ∃ t, b s = .ok t ∧ I t ∧ m t < m s) :
    ∀ (fuel : Nat) (s : σ), I s → m s < fuel →
      ∃ t, whileLoop c b fuel s = .ok t ∧ I t ∧ c t = false := by
  intro fuel
  induction fuel with
  | zero => intro s _ hm; omega
  | succ fuel ih =>
    intro s hI hm
    cases hc : c s with
    | false => exact ⟨s, whileLoop_done c b hc (by omega), hI, hc⟩
    | true =>
      obtain ⟨t, hb, ht, hlt⟩ := hstep s hI hc
      rw [whileLoop_turn c b hc hb]
      exact ih t ht (by omega)

/-- **Partial correctness**: what every turn keeps holds when the loop ends. -/
theorem whileLoop_inv (I : σ → Prop)
    (hstep : ∀ s t, I s → c s = true → b s = .ok t → I t) :
    ∀ (fuel : Nat) (s t : σ), I s → whileLoop c b fuel s = .ok t → I t ∧ c t = false := by
  intro fuel
  induction fuel with
  | zero => intro s t _ h; simp [whileLoop] at h
  | succ fuel ih =>
    intro s t hI h
    cases hc : c s with
    | false =>
      rw [whileLoop_done c b hc (by omega)] at h
      cases h
      exact ⟨hI, hc⟩
    | true =>
      simp only [whileLoop, hc, if_true, bind_eq_ok] at h
      obtain ⟨u, hb, hu⟩ := h
      exact ih u t (hstep s u hI hc hb) hu

theorem whileLoop_endless (I : σ → Prop)
    (hstep : ∀ s, I s → c s = true ∧ ∃ t, b s = .ok t ∧ I t) :
    ∀ (fuel : Nat) (s : σ), I s → whileLoop c b fuel s = .error .endless := by
  intro fuel
  induction fuel with
  | zero => intro s _; rfl
  | succ fuel ih =>
    intro s hI
    obtain ⟨hc, t, hb, ht⟩ := hstep s hI
    rw [whileLoop_turn c b hc hb]
    exact ih t ht

/-- A loop whose turns never leave the states where the condition holds, and lower the measure until one of them
faults, ends in that fault. -/
theorem whileLoop_fault (I : σ → Prop) (m : σ → Nat) (e : Fault)
    (hstep : ∀ s, I s → c s = true ∧ (b s = .error e ∨ ∃ t, b s = .ok t ∧ I t ∧ m t < m s)) :
    ∀ (fuel : Nat) (s : σ), I s → m s < fuel → whileLoop c b fuel s = .error e := by
  intro fuel
  induction fuel with
  | zero => intro s _ hm; omega
  | succ fuel ih =>
    intro s hI hm
    obtain ⟨hc, hb | ⟨t, hb, ht, hlt⟩⟩ := hstep s hI
    · rw [whileLoop, if_pos hc, hb, error_bind]
    · rw [whileLoop_turn c b hc hb]
      exact ih t ht (by omega)

/-- **Simulation**: where the conditions agree on related states, and each turn of `b'` is one of `b` that keeps the
relation, the loop over `b` ends when the other one does, in a related state. -/
theorem whileLoop_simulates {τ : Type} (c' : τ → Bool) (b' : τ → Exec τ) (R : σ → τ → Prop)
    (hc : ∀ s t, R s t → c s = c' t)
    (hstep : ∀ s t t', R s t → c' t = true → b' t = .ok t' → ∃ s', b s = .ok s' ∧ R s' t') :
    ∀ (fuel : Nat) (s : σ) (t t' : τ), R s t → whileLoop c' b' fuel t = .ok t' →
      ∃ s', whileLoop c b fuel s = .ok s' ∧ R s' t' := by
  intro fuel
  induction fuel with
  | zero => intro s t t' _ h; cases h
  | succ fuel ih =>
    intro s t t' hR h
    cases ht : c' t with
    | false =>
      rw [whileLoop_done c' b' ht (Nat.succ_pos fuel)] at h
      cases h
      exact ⟨s, whileLoop_done c b ((hc s t hR).trans ht) (Nat.succ_pos fuel), hR⟩
    | true =>
      simp only [whileLoop, ht, if_true, bind_eq_ok] at h
      obtain ⟨u, hb', hu⟩ := h
      obtain ⟨s₁, hb, hR₁⟩ := hstep s t u hR ht hb'
      rw [whileLoop_turn c b ((hc s t hR).trans ht) hb]
      exact ih s₁ u t' hR₁ hu

/-- The loop from a state passes through another one. -/
inductive Visits : σ → σ → Prop
  | start (s : σ) : Visits s s
  | turn {s t u : σ} : Visits s t → c t = true → b t = .ok u → Visits s u

/-- What every turn keeps holds in each state that the loop passes through. -/
theorem Visits.inv {c : σ → Bool} {b : σ → Exec σ} (I : σ → Prop)
    (hstep : ∀ s t, I s → c s = true → b s = .ok t → I t) {s t : σ} (h : Visits c b s t) (hs : I s) : I t := by
  induction h with
  | start => exact hs
  | turn _ hc hb ih => exact hstep _ _ ih hc hb

theorem Visits.ends {c : σ → Bool} {b : σ → Exec σ} {s t : σ} (h : Visits c b s t) :
    ∀ {fuel : Nat} {u : σ}, whileLoop c b fuel s = .ok u → ∃ n, whileLoop c b n t = .ok u := by
  induction h with
  | start => exact fun hend => ⟨_, hend⟩
  | turn _ hc hb ih =>
    intro fuel u hend
    obtain ⟨n, hn⟩ := ih hend
    cases n with
    | zero => cases hn
    | succ n => exact ⟨n, by rwa [whileLoop_turn c b hc hb] at hn⟩

theorem visits_of_whileLoop {c : σ → Bool} {b : σ → Exec σ} {fuel : Nat} {s t : σ}
    (h : whileLoop c b fuel s = .ok t) : Visits c b s t :=
  (whileLoop_inv c b (Visits c b s) (fun _ _ hu hc hb => .turn hu hc hb) fuel s t (.start s) h).1

/-- The states in which the loop takes its turns, in order. -/
def loopTurns : Nat → σ → List σ
  | 0, _ => []
  | fuel + 1, s => if c s then s :: (match b s with | .ok t => loopTurns fuel t | .error _ => []) else []

theorem mem_loopTurns_start (fuel : Nat) {s : σ} (hs : c s = true) : s ∈ loopTurns c b (fuel + 1) s := by
  rw [loopTurns, if_pos hs]
  exact List.mem_cons_self

/-- What every turn keeps holds in each state in which the loop takes a turn. -/
theorem mem_loopTurns {c : σ → Bool} {b : σ → Exec σ} (I : σ → Prop)
    (hstep : ∀ s t, I s → c s = true → b s = .ok t → I t) :
    ∀ {fuel : Nat} {s t : σ}, I s → t ∈ loopTurns c b fuel s → I t ∧ c t = true := by
  intro fuel
  induction fuel with
  | zero => exact fun _ h => absurd h List.not_mem_nil
  | succ fuel ih =>
    intro s t hI h
    cases hc : c s with
    | false =>
      rw [loopTurns, hc, if_neg Bool.false_ne_true] at h
      exact absurd h List.not_mem_nil
    | true =>
      rw [loopTurns, hc, if_pos rfl, List.mem_cons] at h
      rcases h with rfl | h
      · exact ⟨hI, hc⟩
      · cases hb : b s with
        | error e =>
          rw [hb] at h
          exact absurd h List.not_mem_nil
        | ok u =>
          rw [hb] at h
          exact ih (hstep s u hI hc hb) h

end While

end Prog
