import RecencyCache.Proofs.Roster.Refinement

/-!
# The terms of a cache

The terms are what a cache is told and does not find out: its limit on nodes, its capacity, its
policy and its clock. Four commands set one of them each, and nothing else changes any of them, so
the terms after a run are told by its operations alone: `terms_run`.
-/
namespace RecencyCache

structure Terms where
  limit : Option Nat
  capacity : Nat
  policy : Policy
  clock : HandClock

namespace Terms

variable {κ ν : Type}

/-- The terms after a command. -/
def apply (t : Terms) : Command κ ν → Terms
  | .setCapacity n => { t with capacity := n }
  | .limitNodes n => { t with limit := some n }
  | .setWindow d => { t with policy := t.policy.withWindow d }
  | .advance d => { t with clock := t.clock.advance d }
  | _ => t

/-- The terms after an operation. -/
def perform (t : Terms) : Op κ ν → Terms
  | .query _ => t
  | .command m => t.apply m

end Terms

/-! ## One operation -/

namespace Roster

variable {κ ν : Type}

def terms (r : Roster κ ν) : Terms := ⟨r.limit, r.capacity, r.policy, r.clock⟩

variable (r : Roster κ ν)

theorem terms_pop : r.pop.2.terms = r.terms := by
  unfold pop
  split <;> rfl

variable [BEq κ] (k : κ)

theorem terms_push (e : Entry κ ν) : (r.push e).2.terms = r.terms := by
  unfold push
  split
  · rfl
  · split
    · rfl
    · split <;> rfl

theorem terms_take : (r.take k).2.terms = r.terms := by
  unfold take
  split <;> rfl

theorem terms_erase : (r.erase k).2.terms = r.terms := by
  unfold erase
  split <;> rfl

theorem terms_write? (v : ν) : (r.write? k v).2.terms = r.terms := by
  unfold write?
  split <;> rfl

variable [Inhabited ν]

theorem terms_ensure : (r.ensure k).2.terms = r.terms := by
  unfold ensure
  split
  · rfl
  · exact terms_push r ⟨k, default⟩

theorem terms_apply (target : Option (Entry κ ν)) (m : Command κ ν) :
    (r.apply target m).2.terms = r.terms.apply m := by
  cases m with
  | push hint e => exact terms_push r e
  | pop => exact terms_pop r
  | take k | takeValue k => exact terms_take r k
  | erase k => exact terms_erase r k
  | eraseAt pos =>
    cases target with
    | none => rfl
    | some e => exact terms_erase r e.key
  | writeIfPresent k v | write k v => exact terms_write? r k v
  | ensure k => exact terms_ensure r k
  | ensureWrite k v =>
    have hensure := terms_ensure r k
    simp only [apply]
    split <;> rename_i heq <;> rw [heq] at hensure
    · exact (terms_write? _ k v).trans hensure
    · exact hensure
  | clear | setCapacity n | limitNodes n | setWindow d | advance d => rfl

theorem terms_perform (target : Option (Entry κ ν)) (op : Op κ ν) :
    (r.perform target op).2.terms = r.terms.perform op := by
  cases op with
  | query q => rfl
  | command m => exact terms_apply r target m

end Roster

/-! ## A run -/

namespace Cache

variable {κ ν : Type}

def terms (c : Cache κ ν) : Terms := ⟨c.nodes.limit, c.capacity, c.policy, c.clock⟩

variable [BEq κ] {c c' : Cache κ ν} {s : Shelf κ ν}

theorem Shows.terms_eq (sh : c.Shows s) : c.terms = s.roster.terms := by
  rw [terms, sh.stores.limit, sh.capacity, sh.policy, sh.clock]
  rfl

variable [EquivBEq κ] [Inhabited ν] {hash : κ → UInt64}

theorem Reachable.terms_perform (hc : c.Reachable hash) (ha : Agrees hash) {op : Op κ ν}
    {answer : Answer κ ν} (hop : c.perform op = .ok (answer, c')) :
    c'.terms = c.terms.perform op := by
  obtain ⟨s, sh⟩ := hc.exists_shows ha
  have hterms := s.roster.terms_perform (s.target? op) op
  rw [Shelf.roster_perform sh.inv] at hterms
  rw [sh.terms_eq, ((sh.follows_perform op).of_ok hop).2.terms_eq]
  exact hterms

theorem Reachable.terms_run (hc : c.Reachable hash) (ha : Agrees hash) {ops : List (Op κ ν)}
    {answers : List (Answer κ ν)} (hrun : c.run ops = .ok (answers, c')) :
    c'.terms = ops.foldl Terms.perform c.terms := by
  induction ops generalizing c answers with
  | nil =>
    cases hrun
    rfl
  | cons op ops ih =>
    rw [Cache.run] at hrun
    obtain ⟨⟨answer, c₁⟩, hop, hrest⟩ := Fault.exists_of_bind hrun
    obtain ⟨⟨rest, c₂⟩, hops, hlast⟩ := Fault.exists_of_bind hrest
    cases hlast
    rw [ih (hc.perform hop) hops, hc.terms_perform ha hop]
    rfl

end Cache
end RecencyCache
