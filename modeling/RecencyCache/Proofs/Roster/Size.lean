import RecencyCache.Proofs.Roster.Change
import RecencyCache.Proofs.Roster.Nesting

/-!
# How many records there are

Only an insertion makes a roster larger, and it needs a roster that is not full and a limit that is
not reached (`size_of_change`). So a policy that looks at the size alone keeps a roster within its
capacity, but for one record that a push into an empty roster always finds room for
(`bounded_of_change`); and a limit keeps a roster from growing past it, whatever the policy
(`within_of_change`).
-/
namespace RecencyCache.Roster

variable {κ ν : Type} {r r' : Roster κ ν}

/-- Shrinking by size alone leaves no more records than the capacity. -/
theorem length_kept_le_capacity (hp : r.policy = .bySize) : r.kept.length ≤ r.capacity := by
  rcases List.eq_nil_or_concat' r.kept with hnil | ⟨l, x, hlast⟩
  · simp [hnil]
  · have hkept := not_evicts_of_kept hlast
    rw [hp] at hkept
    exact Nat.le_of_not_lt (of_decide_eq_false hkept)

theorem oldest?_eq_none_iff : r.oldest? = none ↔ r.size = 0 := by
  rw [oldest?, List.getLast?_eq_none_iff, size, List.length_eq_zero_iff]

theorem size_pos_of_full (h : r.full = true) : 0 < r.size := by
  by_contra hsize
  have ho := oldest?_eq_none_iff.2 (Nat.eq_zero_of_not_pos hsize)
  rw [full, ho] at h
  cases h

/-- Without a window only an empty roster has room where the capacity is reached. -/
theorem size_lt_of_not_full (hp : r.policy = .bySize) (h : r.full = false) :
    r.size = 0 ∨ r.size < r.capacity := by
  rw [← oldest?_eq_none_iff]
  cases ho : r.oldest? with
  | none => exact .inl rfl
  | some x =>
    rw [full, ho, Option.any_some, hp] at h
    exact .inr (Nat.lt_of_succ_le (Nat.le_of_not_lt (of_decide_eq_false h)))

variable [BEq κ]

/-! ## What a change does to the size, the policy and the capacity -/

/-- Only an insertion makes a roster larger. -/
theorem size_of_change (h : r.Change r') : r'.size ≤ r.size ∨
    r'.size = r.size + 1 ∧ r.full = false ∧ r.limit.filter (· ≤ r.size) = none := by
  cases h with
  | insert e hfind hfull hlimit => exact .inr ⟨rfl, hfull, hlimit⟩
  | refresh e hfind => exact .inl (Nat.le_of_eq (length_without_add_one hfind))
  | displace e hfind hfull =>
    have hpos := size_pos_of_full hfull
    refine .inl (show (r.records.dropLast).length + 1 ≤ r.size from ?_)
    rw [List.length_dropLast]
    unfold size at hpos ⊢
    omega
  | evict l x h =>
    refine .inl (show l.length ≤ r.size from ?_)
    rw [size, h, List.length_append]
    omega
  | remove k => exact .inl List.length_eraseP_le
  | clear => exact .inl (Nat.zero_le _)
  | overwrite k v => exact .inl (Nat.le_of_eq (List.length_map _))
  | setCapacity n => exact .inl (length_kept_le { r with capacity := n })
  | setWindow d => exact .inl (length_kept_le { r with policy := r.policy.withWindow d })
  | limitNodes n | advance d =>
    rw [size, size]
    exact .inl (Nat.le_refl _)

/-- A policy without a window neither comes nor goes. -/
theorem bySize_iff_of_change (h : r.Change r') : r'.policy = .bySize ↔ r.policy = .bySize := by
  cases h with
  | setWindow d =>
    show r.policy.withWindow d = .bySize ↔ r.policy = .bySize
    cases r.policy with
    | bySize => exact Iff.rfl
    | bySizeAndAge w => constructor <;> exact nofun
  | _ => exact Iff.rfl

theorem capacity_of_change (h : r.Change r') :
    r'.capacity = r.capacity ∨ ∃ n, r' = (r.setCapacity n).2 := by
  cases h with
  | setCapacity n => exact .inr ⟨n, rfl⟩
  | _ => exact .inl rfl

/-! ## Within the capacity -/

/-- Without a window there are no more records than the capacity, or than one. -/
def Bounded (r : Roster κ ν) : Prop := r.policy = .bySize → r.size ≤ max r.capacity 1

theorem bounded_of_change (h : r.Change r') (hr : r.Bounded) : r'.Bounded := by
  intro hp'
  have hp := (bySize_iff_of_change h).1 hp'
  have hle := hr hp
  rcases capacity_of_change h with hcapacity | ⟨n, rfl⟩
  · rw [hcapacity]
    rcases size_of_change h with hsize | ⟨hsize, hfull, -⟩
    · omega
    · have hroom := size_lt_of_not_full hp hfull
      omega
  · have hkept := length_kept_le_capacity (r := { r with capacity := n }) hp
    exact Nat.le_trans hkept (Nat.le_max_left n 1)

/-! ## Within the limit -/

/-- The limit is `n`, and there are no more records than `n`, or than `m`. -/
structure Within (r : Roster κ ν) (n m : Nat) : Prop where
  limit : r.limit = some n
  size : r.size ≤ max m n

theorem within_of_change {n m : Nat} (h : r.Change r') (hl : r'.limit = r.limit)
    (hr : r.Within n m) : r'.Within n m := by
  have hle := hr.size
  refine ⟨hl.trans hr.limit, ?_⟩
  rcases size_of_change h with hsize | ⟨hsize, -, hlimit⟩
  · omega
  · rw [hr.limit, Option.filter_eq_none_iff] at hlimit
    have hlt := hlimit n rfl
    rw [decide_eq_true_eq] at hlt
    omega

end RecencyCache.Roster
