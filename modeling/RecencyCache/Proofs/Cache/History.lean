import Mathlib.Data.List.Chain
import RecencyCache.Proofs.Cache.Lifetime

/-!
# Every state of a run

A history lists the caches that a run passes through. What each operation of the run keeps holds of
all of them (`forall_mem_history`), what each operation does holds from one to the next
(`isChain_history`), and what it answers holds of each answer (`forall₂_run`). A reachable cache has
a history for any operations, and all caches in it are reachable: `Reachable.exists_history`.
-/
namespace RecencyCache.Cache

variable {κ ν : Type} [BEq κ] [Inhabited ν] {c last : Cache κ ν} {ops : List (Op κ ν)}
  {earlier : List (Cache κ ν)}

theorem head?_history (h : c.history ops = .ok (earlier, last)) :
    (earlier ++ [last]).head? = some c := by
  cases ops with
  | nil =>
    cases h
    rfl
  | cons op ops =>
    obtain ⟨_, _, rest, -, -, rfl⟩ := exists_of_history_cons h
    rfl

/-- **Induction along a run.** What every operation keeps holds in all states. -/
theorem forall_mem_history {P : Cache κ ν → Prop}
    (hstep : ∀ x, P x → ∀ op ∈ ops, ∀ answer y, x.perform op = .ok (answer, y) → P y)
    (hc : P c) (h : c.history ops = .ok (earlier, last)) : ∀ x ∈ earlier ++ [last], P x := by
  induction ops generalizing c earlier with
  | nil =>
    cases h
    exact List.forall_mem_singleton.2 hc
  | cons op ops ih =>
    obtain ⟨answer, c', rest, hop, hrest, rfl⟩ := exists_of_history_cons h
    have hc' := hstep c hc op List.mem_cons_self answer c' hop
    have hall := ih (fun x hx op hop => hstep x hx op (List.mem_cons_of_mem _ hop)) hc' hrest
    exact List.forall_mem_cons.2 ⟨hc, hall⟩

/-- What every operation does is done from each state to the next. -/
theorem isChain_history {R : Cache κ ν → Cache κ ν → Prop}
    (h : c.history ops = .ok (earlier, last))
    (hstep : ∀ x ∈ earlier ++ [last], ∀ op ∈ ops, ∀ answer y,
      x.perform op = .ok (answer, y) → R x y) : (earlier ++ [last]).IsChain R := by
  induction ops generalizing c earlier with
  | nil =>
    cases h
    exact List.isChain_singleton _
  | cons op ops ih =>
    obtain ⟨answer, c', rest, hop, hrest, rfl⟩ := exists_of_history_cons h
    rw [List.cons_append] at hstep ⊢
    rw [List.isChain_cons, head?_history hrest]
    constructor
    · intro y hy
      rw [← Option.mem_some_iff.1 hy]
      exact hstep c List.mem_cons_self op List.mem_cons_self answer c' hop
    · exact ih hrest fun x hx op hop =>
        hstep x (List.mem_cons_of_mem _ hx) op (List.mem_cons_of_mem _ hop)

/-- The run that passes through the caches of a history. -/
theorem exists_run_of_history (h : c.history ops = .ok (earlier, last)) :
    ∃ answers, c.run ops = .ok (answers, last) := by
  induction ops generalizing c earlier with
  | nil =>
    cases h
    exact ⟨[], rfl⟩
  | cons op ops ih =>
    obtain ⟨answer, c', rest, hop, hrest, rfl⟩ := exists_of_history_cons h
    obtain ⟨answers, hrun⟩ := ih hrest
    exact ⟨answer :: answers, by simp [run, hop, hrun]⟩

/-- **Induction along the answers.** What every operation keeps, and what it answers where that
holds. -/
theorem forall₂_run {P : Cache κ ν → Prop} {R : Op κ ν → Answer κ ν → Prop}
    {answers : List (Answer κ ν)}
    (hstep : ∀ x, P x → ∀ op ∈ ops, ∀ answer y, x.perform op = .ok (answer, y) →
      P y ∧ R op answer)
    (hc : P c) (h : c.run ops = .ok (answers, last)) : List.Forall₂ R ops answers := by
  induction ops generalizing c answers with
  | nil =>
    cases h
    exact .nil
  | cons op ops ih =>
    rw [run] at h
    obtain ⟨⟨answer, c'⟩, hop, hrest⟩ := Fault.exists_of_bind h
    obtain ⟨⟨rest, _⟩, hops, hlast⟩ := Fault.exists_of_bind hrest
    cases hlast
    obtain ⟨hc', hanswer⟩ := hstep c hc op List.mem_cons_self answer c' hop
    exact .cons hanswer
      (ih (fun x hx op hop => hstep x hx op (List.mem_cons_of_mem _ hop)) hc' hops)

variable [EquivBEq κ] {hash : κ → UInt64}

theorem Reachable.exists_history (hc : c.Reachable hash) (ha : Agrees hash)
    (ops : List (Op κ ν)) : ∃ earlier last, c.history ops = .ok (earlier, last) ∧
      ∀ x ∈ earlier ++ [last], x.Reachable hash := by
  obtain ⟨s, sh⟩ := hc.exists_shows ha
  obtain ⟨earlier, last, hlast, -⟩ := sh.exists_course ops
  refine ⟨earlier, last, hlast, forall_mem_history (fun x hx op _ answer y hop => ?_) hc hlast⟩
  exact hx.perform hop

end RecencyCache.Cache
