import RecencyCache.Proofs.Cache.Bound
import RecencyCache.Proofs.Cache.Refusals
import RecencyCache.Proofs.Roster.Terms

/-!
# Settings that leave room

Settings that passed their check have a node limit no smaller than their capacity, which is at least
one. In a cache that evicts by size alone the oldest entry then leaves for a new one before the node
limit is reached, and so no insertion is ever refused, as long as no capacity above the limit is
set: `accepts_of_check`.
-/
namespace RecencyCache

/-! ## What a check guarantees -/

theorem Settings.check_eq_ok_iff {s : Settings} : s.check = .ok () ↔
    0 < s.capacity ∧ 0 < s.chainCount ∧ ∀ l, s.nodeLimit = some l → s.capacity ≤ l := by
  have hlow : s.lowNodeLimit? = none ↔ ∀ l, s.nodeLimit = some l → s.capacity ≤ l := by
    simp [lowNodeLimit?, Option.filter_eq_none_iff]
  rw [UInt64.pos_iff_ne_zero, UInt64.pos_iff_ne_zero, ← hlow, check, flaw?]
  by_cases hcapacity : s.capacity = 0
  · simp [hcapacity]
  · by_cases hcount : s.chainCount = 0
    · simp [hcapacity, hcount]
    · cases s.lowNodeLimit? <;> simp [hcapacity, hcount]

namespace Cache

variable {κ ν : Type}

/-- Settings that passed their check make a cache with their counts. -/
theorem ofSettings_eq {settings : Settings} (hs : settings.check = .ok ()) (policy : Policy)
    (hash : κ → UInt64) (clock : HandClock) :
    ofSettings (ν := ν) settings policy hash clock =
      .ok (build settings.capacity.toNat settings.chainCount.toNat
        (settings.nodeLimit.map UInt64.toNat) policy hash clock) := by
  rw [ofSettings, hs]
  cases settings.nodeLimit <;> rfl

/-! ## Room for every entry -/

/-- The cache evicts by size alone, and before its node limit is reached. -/
structure Roomy (c : Cache κ ν) (limit : Option Nat) : Prop where
  policy : c.policy = .bySize
  nodeLimit : c.nodes.limit = limit
  capacity : ∀ n, limit = some n → 0 < n ∧ c.capacity ≤ n

theorem roomy_build {settings : Settings} (hs : settings.check = .ok ()) (hash : κ → UInt64) :
    (build settings.capacity.toNat settings.chainCount.toNat
      (settings.nodeLimit.map UInt64.toNat) .bySize hash .initial : Cache κ ν).Roomy
        (settings.nodeLimit.map UInt64.toNat) := by
  obtain ⟨hpos, -, hle⟩ := Settings.check_eq_ok_iff.1 hs
  rw [UInt64.lt_iff_toNat_lt] at hpos
  cases hlimit : settings.nodeLimit with
  | none => exact ⟨rfl, rfl, nofun⟩
  | some l =>
    refine ⟨rfl, rfl, fun n hn => ?_⟩
    cases hn
    have hl := UInt64.le_iff_toNat_le.1 (hle l hlimit)
    exact ⟨Nat.lt_of_lt_of_le hpos hl, hl⟩

variable [BEq κ] {c c' : Cache κ ν} {limit : Option Nat} {k : κ} {n : Nat} {hash : κ → UInt64}

theorem Roomy.not_noRoom {s : Shelf κ ν} (h : c.Roomy limit) (sh : c.Shows s) :
    ¬ c.NoRoom k n := by
  rintro ⟨-, hlimit, hreached, hstays⟩
  obtain ⟨hpos, hle⟩ := h.capacity n (h.nodeLimit.symm.trans hlimit)
  rcases hstays with hempty | hstays
  · rw [isEmpty, beq_iff_eq] at hempty
    omega
  · have hp := sh.policy.symm.trans h.policy
    rw [sh.wouldEvict_eq, Shelf.overfull, hp, ← sh.capacity, Except.ok.injEq] at hstays
    have hroom := of_decide_eq_false hstays
    omega

variable [EquivBEq κ] [Inhabited ν]

/-- One operation, which sets no node limit and no capacity above it. -/
theorem Roomy.perform (h : c.Roomy limit) (hc : c.Reachable hash) (ha : Agrees hash)
    {op : Op κ ν} {answer : Answer κ ν} (hlimit : ∀ m, op ≠ .command (.limitNodes m))
    (hcapacity : ∀ m, op = .command (.setCapacity m) → ∀ n, limit = some n → m ≤ n)
    (hop : c.perform op = .ok (answer, c')) : c'.Roomy limit := by
  have hterms := hc.terms_perform ha hop
  refine ⟨hc.bySize_of_perform ha h.policy hop, ?_, fun n hn => ⟨(h.capacity n hn).1, ?_⟩⟩
  · refine (congrArg Terms.limit hterms).trans ?_
    rw [← h.nodeLimit]
    cases op with
    | query q => rfl
    | command m =>
      cases m with
      | limitNodes m => exact absurd rfl (hlimit m)
      | _ => rfl
  · refine Nat.le_trans (Nat.le_of_eq (congrArg Terms.capacity hterms)) ?_
    have hle := (h.capacity n hn).2
    cases op with
    | query q => exact hle
    | command m =>
      cases m with
      | setCapacity m => exact hcapacity m rfl n hn
      | _ => exact hle

/-- An insertion is not refused. -/
theorem Roomy.ne_refused (h : c.Roomy limit) (hc : c.Reachable hash) (ha : Agrees hash)
    {op : Op κ ν} {answer : Answer κ ν} (hk : op.newcomer? = some k)
    (hop : c.perform op = .ok (answer, c')) (r : Refusal) : answer ≠ .refused r := by
  obtain ⟨s, sh⟩ := hc.exists_shows ha
  obtain ⟨answer', c'', hop', hrefused, -⟩ := sh.exists_perform_newcomer hk
  rw [hop, Except.ok.injEq, Prod.mk.injEq] at hop'
  obtain ⟨rfl, rfl⟩ := hop'
  intro hr
  obtain ⟨n, hn, -⟩ := (hrefused r).1 hr
  exact h.not_noRoom sh hn

theorem Roomy.size_le (h : c.Roomy limit) (hc : c.Reachable hash) (ha : Agrees hash)
    (hn : limit = some n) : c.size ≤ n := by
  have hsize := hc.size_le ha h.policy
  obtain ⟨hpos, hle⟩ := h.capacity n hn
  omega

/-- **Room for every entry.** A cache made of settings that passed their check evicts by size alone
and serves any operations that set no other node limit and no capacity above it. No insertion is
refused, and the size never exceeds the node limit. -/
theorem accepts_of_check (ha : Agrees hash) {settings : Settings} (hs : settings.check = .ok ())
    {ops : List (Op κ ν)} (hlimit : ∀ m, .command (.limitNodes m) ∉ ops)
    (hcapacity : ∀ m, .command (.setCapacity m) ∈ ops →
      ∀ l, settings.nodeLimit = some l → m ≤ l.toNat) :
    ∃ c answers earlier last, sizedOfSettings settings hash = .ok c ∧
      c.run ops = .ok (answers, last) ∧ c.history ops = .ok (earlier, last) ∧
      List.Forall₂ (fun op answer => ∀ k, op.newcomer? = some k → ∀ r, answer ≠ .refused r)
        ops answers ∧
      ∀ x ∈ earlier ++ [last], ∀ l, settings.nodeLimit = some l → x.size ≤ l.toNat := by
  have hmade := ofSettings_eq (ν := ν) hs .bySize hash .initial
  have hc : Reachable hash _ := .ofSettings hmade
  have hr := roomy_build (κ := κ) (ν := ν) hs hash
  generalize build (ν := ν) _ _ _ _ hash _ = c at hmade hc hr
  obtain ⟨earlier, last, hlast, -⟩ := hc.exists_history ha ops
  obtain ⟨answers, hrun⟩ := exists_run_of_history hlast
  have hstep : ∀ x : Cache κ ν, x.Reachable hash ∧ x.Roomy (settings.nodeLimit.map UInt64.toNat) →
      ∀ op ∈ ops, ∀ answer y, x.perform op = .ok (answer, y) →
        (y.Reachable hash ∧ y.Roomy (settings.nodeLimit.map UInt64.toNat)) ∧
          ∀ k, op.newcomer? = some k → ∀ r, answer ≠ .refused r := by
    rintro x ⟨hx, hroomy⟩ op hmem answer y hop
    refine ⟨⟨hx.perform hop, hroomy.perform hx ha (fun m hm => hlimit m (hm ▸ hmem)) ?_ hop⟩,
      fun k hk => hroomy.ne_refused hx ha hk hop⟩
    intro m hm n hn
    obtain ⟨l, hl, rfl⟩ := Option.map_eq_some_iff.1 hn
    exact hcapacity m (hm ▸ hmem) l hl
  refine ⟨c, answers, earlier, last, hmade, hrun, hlast, forall₂_run hstep ⟨hc, hr⟩ hrun,
    fun x hx l hl => ?_⟩
  obtain ⟨hreach, hroomy⟩ := forall_mem_history
    (fun x hx op hmem answer y hop => (hstep x hx op hmem answer y hop).1) ⟨hc, hr⟩ hlast x hx
  exact hroomy.size_le hreach ha (congrArg (Option.map UInt64.toNat) hl)

/-- A node limit that equals the capacity, which is raised from none at all back to the limit. -/
theorem accepts_at_limit :
    let settings : Settings := { capacity := 2, chainCount := 3, nodeLimit := some 2 }
    let ops : List (Op Int64 Int64) :=
      [.command (.push none ⟨0, 0⟩), .command (.push none ⟨1, 0⟩), .command (.ensure 2),
        .command (.setCapacity 0), .command (.ensureWrite 3 7), .command (.push none ⟨4, 1⟩),
        .command (.setCapacity 2), .command (.push none ⟨5, 1⟩), .command (.push none ⟨6, 1⟩)]
    ∃ c answers earlier last, sizedOfSettings settings HashScheme.identity.hash = .ok c ∧
      c.run ops = .ok (answers, last) ∧ c.history ops = .ok (earlier, last) ∧
      List.Forall₂ (fun op answer => ∀ k, op.newcomer? = some k → ∀ r, answer ≠ .refused r)
        ops answers ∧
      ∀ x ∈ earlier ++ [last], ∀ l, settings.nodeLimit = some l → x.size ≤ l.toNat := by
  intro settings ops
  refine accepts_of_check (agrees_of_lawful _) rfl (by simp [ops]) fun m hm l hl => ?_
  cases hl
  have hm' : m = 0 ∨ m = 2 := by simpa [ops] using hm
  rcases hm' with rfl | rfl <;> decide

end Cache
end RecencyCache
