import RecencyCache.Proofs.Shelf.Invariant

/-!
# Who stays in which slot

The record in a slot stays there as long as its key does: a push under an equal key, a write and
the comings and goings of other records leave it where it is. `Turns s s'` says what a step from `s`
to `s'` does to generations: that of a slot advances by one if the record in it left, and stays
otherwise; and a record that left is not there any more under its key. One operation is such a step
(`turns_perform`), also if it evicts many records.
-/
namespace RecencyCache.Shelf

variable {κ ν : Type} [BEq κ]

/-- Whether the record in slot `i` left in the step from `s` to `s'`. -/
def left (s s' : Shelf κ ν) (i : SlotId) : Bool :=
  (s.tenant? i).any fun h => !(s'.tenant? i).any (·.key == h.key)

/-- What a step does to the generations and to those who leave. -/
structure Turns (s s' : Shelf κ ν) : Prop where
  generation : ∀ i, s'.generation i = if s.left s' i then s.generation i + 1 else s.generation i
  gone : ∀ h ∈ s.held, s.left s' h.slot = true → s'.find? h.key = none

variable {s s' : Shelf κ ν} {h x : Held κ ν} {i : SlotId} {e : Entry κ ν}

/-- What else a shelf holds does not matter. -/
theorem Turns.congr {r r' : Shelf κ ν} (t : Turns s s') (hheld : r.held = s.held)
    (hgen : r.generation = s.generation) (hheld' : r'.held = s'.held)
    (hgen' : r'.generation = s'.generation) : Turns r r' := by
  have hleft : ∀ i, r.left r' i = s.left s' i := by
    intro i
    unfold left tenant?
    rw [hheld, hheld']
  refine ⟨fun i => ?_, fun h hh hl => ?_⟩
  · rw [hleft, hgen, hgen']
    exact t.generation i
  · rw [hheld] at hh
    rw [hleft] at hl
    unfold find?
    rw [hheld']
    exact t.gone h hh hl

theorem Turns.count (t : Turns s s') (ev : Event) : Turns s (s'.count ev) :=
  t.congr rfl rfl rfl rfl

/-- Overwriting a value after a step turns nothing over. -/
theorem Turns.overwrite (t : Turns s s') (h : Held κ ν) (v : ν) :
    Turns s (s'.overwrite h v) := by
  have hkey : ∀ x : Held κ ν,
      (if x.slot = h.slot then { x with record.entry.value := v } else x : Held κ ν).key =
        x.key := by
    intro x
    split <;> rfl
  have hleft : ∀ i, s.left (s'.overwrite h v) i = s.left s' i := by
    intro i
    unfold left
    rw [tenant?_overwrite]
    cases s'.tenant? i with
    | none => rfl
    | some x => simp only [Option.map_some, Option.any_some, hkey]
  refine ⟨fun i => ?_, fun x hx hl => ?_⟩
  · rw [hleft]
    exact t.generation i
  · rw [hleft] at hl
    have hnone := find?_eq_none_iff.1 (t.gone x hx hl)
    rw [find?_eq_none_iff]
    intro y hy
    obtain ⟨z, hz, rfl⟩ := List.mem_map.1 hy
    rw [hkey]
    exact hnone z hz

/-! ## Who left -/

theorem left_eq_false_of_vacant (hi : i ∉ s.slots) : s.left s' i = false := by
  rw [left, tenant?_eq_none_iff.2 hi, Option.any_none]

theorem Inv.left_slot (inv : s.Inv) (hh : h ∈ s.held) :
    s.left s' h.slot = !(s'.tenant? h.slot).any (·.key == h.key) := by
  rw [left, inv.tenant?_slot hh, Option.any_some]

/-- A record has left if its slot is vacant. -/
theorem Inv.left_of_vacant (inv : s.Inv) (hh : h ∈ s.held) (hi : h.slot ∉ s'.slots) :
    s.left s' h.slot = true := by
  rw [inv.left_slot hh, tenant?_eq_none_iff.2 hi, Option.any_none, Bool.not_false]

/-- A record has not left if its slot holds a record with an equal key. -/
theorem Inv.left_of_mem (inv : s.Inv) (inv' : s'.Inv) (hh : h ∈ s.held) (hx : x ∈ s'.held)
    (hslot : x.slot = h.slot) (hk : (x.key == h.key) = true) : s.left s' h.slot = false := by
  rw [inv.left_slot hh, ← hslot, inv'.tenant?_slot hx, Option.any_some, hk, Bool.not_true]

theorem exists_of_left_eq_false (inv : s.Inv) (hh : h ∈ s.held)
    (hl : s.left s' h.slot = false) : ∃ x ∈ s'.held, x.slot = h.slot ∧ (x.key == h.key) = true := by
  rw [inv.left_slot hh, Bool.not_eq_false'] at hl
  cases ht : s'.tenant? h.slot with
  | none => simp [ht] at hl
  | some x =>
    rw [ht, Option.any_some] at hl
    exact ⟨x, mem_of_tenant? ht, slot_of_tenant? ht, hl⟩

/-! ## Steps in which nobody leaves, and steps in which nobody comes -/

theorem turns_of_stay (inv : s.Inv) (inv' : s'.Inv)
    (hstay : ∀ h ∈ s.held, ∃ x ∈ s'.held, x.slot = h.slot ∧ (x.key == h.key) = true)
    (hgen : ∀ i, s'.generation i = s.generation i) : Turns s s' := by
  have hleft : ∀ i, s.left s' i = false := by
    intro i
    by_cases hi : i ∈ s.slots
    · obtain ⟨h, hh, rfl⟩ := mem_slots.1 hi
      obtain ⟨x, hx, hslot, hk⟩ := hstay h hh
      exact inv.left_of_mem inv' hh hx hslot hk
    · exact left_eq_false_of_vacant hi
  refine ⟨fun i => ?_, fun h _ hl => ?_⟩
  · rw [hleft i, hgen i, if_neg Bool.false_ne_true]
  · rw [hleft] at hl
    cases hl

variable [EquivBEq κ]

theorem turns_of_leave (inv : s.Inv) (inv' : s'.Inv) (hsub : ∀ x ∈ s'.held, x ∈ s.held)
    (hgen : ∀ i, s'.generation i =
      if i ∈ s.slots ∧ i ∉ s'.slots then s.generation i + 1 else s.generation i) : Turns s s' := by
  have hleft : ∀ i, s.left s' i = true ↔ i ∈ s.slots ∧ i ∉ s'.slots := by
    intro i
    constructor
    · intro hl
      have hi : i ∈ s.slots := by
        by_contra hi
        rw [left_eq_false_of_vacant hi] at hl
        cases hl
      refine ⟨hi, fun hi' => ?_⟩
      obtain ⟨x, hx, rfl⟩ := mem_slots.1 hi'
      rw [inv.left_of_mem inv' (hsub x hx) hx rfl BEq.rfl] at hl
      cases hl
    · rintro ⟨hi, hi'⟩
      obtain ⟨h, hh, rfl⟩ := mem_slots.1 hi
      exact inv.left_of_vacant hh hi'
  refine ⟨fun i => ?_, fun h hh hl => ?_⟩
  · rw [hgen i]
    simp only [hleft]
  · rw [find?_eq_none_iff]
    intro x hx
    rw [← Bool.not_eq_true]
    intro hk
    obtain rfl := inv.eq_of_key hh (hsub x hx) hk
    exact ((hleft _).1 hl).2 (mem_slots.2 ⟨x, hx, rfl⟩)

/-! ## One change -/

theorem turns_refl (inv : s.Inv) : Turns s s :=
  turns_of_stay inv inv (fun h hh => ⟨h, hh, rfl, BEq.rfl⟩) fun _ => rfl

theorem turns_clock (inv : s.Inv) (t : HandClock) : Turns s { s with clock := t } :=
  (turns_refl inv).congr rfl rfl rfl rfl

theorem turns_drop (inv : s.Inv) (hh : h ∈ s.held) : Turns s (s.drop h) := by
  obtain ⟨a, b, hs⟩ := List.append_of_mem hh
  have hheld : (s.drop h).held = a ++ b := inv.without_eq hs
  refine turns_of_leave inv (inv_drop inv hh) (fun x hx => ?_) fun i => ?_
  · rw [hheld] at hx
    rw [hs]
    exact (List.sublist_cons_self h b).append_left a |>.subset hx
  · have hmem : i ∈ s.slots ∧ i ∉ (s.drop h).slots ↔ h.slot = i := by
      rw [← not_iff_not, ← tenant?_eq_none_iff (s := s.drop h), inv.tenant?_drop hh]
      by_cases hi : h.slot = i
      · simp [hi.symm, mem_slots.2 ⟨h, hh, rfl⟩]
      · simp [hi, tenant?_eq_none_iff]
    simp only [drop, renewed]
    exact if_congr hmem.symm rfl rfl

theorem turns_clear (inv : s.Inv) : Turns s s.clear := by
  refine turns_of_leave inv (inv_clear inv) (fun x hx => nomatch hx) fun i => ?_
  simp [clear, slots]

theorem turns_refresh (inv : s.Inv) (hk : s.find? e.key = some h) : Turns s (s.refresh h e) := by
  obtain ⟨hh, hhk⟩ := inv.find?_eq_some_iff.1 hk
  obtain ⟨a, b, hs⟩ := List.append_of_mem hh
  have hheld : (s.refresh h e).held = ⟨s.stamped e, h.slot⟩ :: (a ++ b) :=
    congrArg _ (inv.without_eq hs)
  refine turns_of_stay inv (inv_refresh inv hk) (fun x hx => ?_) fun _ => rfl
  rw [hheld]
  by_cases hxh : x = h
  · subst hxh
    exact ⟨_, List.mem_cons_self, rfl, BEq.symm hhk⟩
  · refine ⟨x, List.mem_cons_of_mem _ ?_, rfl, BEq.rfl⟩
    rw [hs, List.mem_append, List.mem_cons] at hx
    simpa [hxh] using hx

theorem turns_store (inv : s.Inv) (hk : s.find? e.key = none) : Turns s (s.store e) := by
  refine turns_of_stay inv (inv_store inv hk) (fun x hx => ⟨x, ?_, rfl, BEq.rfl⟩) fun i => ?_
  · unfold store
    split <;> exact List.mem_cons_of_mem _ hx
  · unfold store
    split <;> rfl

/-- Only the record whose slot is given away leaves. -/
theorem turns_replace (inv : s.Inv) (hh : h ∈ s.held) (hk : s.find? e.key = none) :
    Turns s (s.replace h e) := by
  have inv' := inv_replace inv hh (without_key_ne hk h.slot)
  obtain ⟨a, b, hs⟩ := List.append_of_mem hh
  have hheld : (s.replace h e).held = ⟨s.stamped e, h.slot⟩ :: (a ++ b) :=
    congrArg _ (inv.without_eq hs)
  have hne : (e.key == h.key) = false := by
    rw [BEq.comm]
    exact find?_eq_none_iff.1 hk h hh
  have hleft : ∀ i, s.left (s.replace h e) i = true ↔ h.slot = i := by
    intro i
    constructor
    · intro hl
      by_contra hi
      by_cases his : i ∈ s.slots
      · obtain ⟨x, hx, rfl⟩ := mem_slots.1 his
        have hxh : x ≠ h := fun e => hi (e ▸ rfl)
        have hx' : x ∈ (s.replace h e).held := by
          have hab := hx
          rw [hs, List.mem_append, List.mem_cons] at hab
          simp only [hxh, false_or] at hab
          rw [hheld]
          exact List.mem_cons_of_mem _ (List.mem_append.2 hab)
        rw [inv.left_of_mem inv' hx hx' rfl BEq.rfl] at hl
        cases hl
      · rw [left_eq_false_of_vacant his] at hl
        cases hl
    · rintro rfl
      have hmem : ⟨s.stamped e, h.slot⟩ ∈ (s.replace h e).held := by
        rw [hheld]
        exact List.mem_cons_self
      rw [inv.left_slot hh, inv'.tenant?_slot hmem, Option.any_some, Bool.not_eq_true']
      exact hne
  refine ⟨fun i => ?_, fun x hx hl => ?_⟩
  · simp only [hleft]
    rfl
  · obtain rfl := inv.eq_of_slot hx hh ((hleft _).1 hl)
    rw [find?_eq_none_iff, hheld]
    intro y hy
    rcases List.mem_cons.1 hy with rfl | hy
    · exact hne
    · rw [BEq.comm]
      exact inv.key_ne hs hy

/-! ## One operation -/

theorem turns_push (inv : s.Inv) (e : Entry κ ν) : Turns s (s.push e).2 := by
  unfold push
  cases hk : s.find? e.key with
  | some h => exact turns_refresh inv hk
  | none =>
    cases hv : s.victim? with
    | some h => exact turns_replace inv (mem_of_oldest? (oldest?_of_victim? hv)) hk
    | none =>
      simp only [insertNew]
      split
      · exact turns_refl inv
      · exact (turns_store inv hk).count .insertion

theorem turns_pop (inv : s.Inv) : Turns s s.pop.2 := by
  unfold pop
  cases ho : s.oldest? with
  | none => exact turns_refl inv
  | some h => exact (turns_drop inv (mem_of_oldest? ho)).count .eviction

omit [EquivBEq κ] in
/-- Evicting takes records off the end, and each of their slots starts one more generation. -/
theorem exists_evicted (n : Nat) (inv : s.Inv) : (evictWithin n s).2.Inv ∧
    ∃ out, s.held = (evictWithin n s).2.held ++ out ∧ ∀ i, (evictWithin n s).2.generation i =
      if i ∈ out.map Held.slot then s.generation i + 1 else s.generation i := by
  induction n generalizing s with
  | zero => exact ⟨inv, [], by simp [evictWithin], fun i => rfl⟩
  | succ n ih =>
    unfold evictWithin
    split
    · cases ho : s.oldest? with
      | none =>
        simp only [pop, ho]
        exact ⟨inv, [], by simp, fun i => rfl⟩
      | some h =>
        obtain ⟨a, hs⟩ := oldest?_eq_some_iff.1 ho
        have hheld : (s.drop h).held = a := by
          rw [drop, inv.without_eq hs, List.append_nil]
        simp only [pop, ho]
        obtain ⟨inv', out, hout, hgen⟩ :=
          ih (inv_count (inv_drop inv (mem_of_oldest? ho)) .eviction)
        refine ⟨inv', out ++ [h], ?_, fun i => ?_⟩
        · have ha : a = _ ++ out := hheld.symm.trans hout
          rw [hs, ← List.append_assoc, ← ha]
        · rw [hgen i]
          have hslot : h.slot ∉ out.map Held.slot := by
            intro hm
            obtain ⟨x, hx, hxh⟩ := List.mem_map.1 hm
            refine inv.slot_ne hs ?_ hxh
            rw [List.append_nil, ← hheld]
            rw [show (s.drop h).held = _ from hout]
            exact List.mem_append_right _ hx
          have hdrop : ((s.drop h).count .eviction).generation i =
              if h.slot = i then s.generation i + 1 else s.generation i := rfl
          rw [hdrop, List.map_append, List.map_singleton]
          by_cases hi : h.slot = i
          · subst hi
            simp [hslot]
          · simp [hi, Ne.symm hi]
    · exact ⟨inv, [], by simp, fun i => rfl⟩

theorem turns_evictWithin (n : Nat) (inv : s.Inv) : Turns s (evictWithin n s).2 := by
  obtain ⟨inv', out, hout, hgen⟩ := exists_evicted n inv
  have hn := inv.slots
  rw [slots, hout, List.map_append] at hn
  refine turns_of_leave inv inv' (fun x hx => ?_) fun i => ?_
  · rw [hout]
    exact List.mem_append_left out hx
  · rw [hgen i]
    refine if_congr ?_ rfl rfl
    rw [slots, hout, List.map_append, List.mem_append]
    constructor
    · intro hi
      exact ⟨Or.inr hi, fun hi' => (List.nodup_append.1 hn).2.2 i hi' i hi rfl⟩
    · rintro ⟨hi, hi'⟩
      exact hi.resolve_left hi'

theorem turns_remove (inv : s.Inv) (hh : h ∈ s.held) : Turns s (s.remove h).2 :=
  (turns_drop inv hh).count .removal

theorem turns_ensure [Inhabited ν] (inv : s.Inv) (k : κ) : Turns s (s.ensure k).2 := by
  have hpush := turns_push inv (⟨k, default⟩ : Entry κ ν)
  unfold ensure
  split
  · exact turns_refl inv
  · split <;> rename_i heq <;> rw [heq] at hpush <;> exact hpush

variable [Inhabited ν]

theorem turns_apply (inv : s.Inv) (m : Command κ ν) : Turns s (s.apply m).2 := by
  cases m with
  | push hint e => exact turns_push inv e
  | pop => exact turns_pop inv
  | take k | takeValue k =>
    simp only [apply, Prod.map_snd, take, id]
    cases hk : s.find? k with
    | none => exact turns_refl inv
    | some h => exact turns_remove inv (mem_of_find? hk)
  | erase k =>
    simp only [apply, Prod.map_snd, erase, id]
    cases hk : s.find? k with
    | none => exact turns_refl inv
    | some h => exact turns_remove inv (mem_of_find? hk)
  | eraseAt pos =>
    simp only [apply, Prod.map_snd, eraseAt, id]
    cases hat : s.at? pos with
    | none => exact turns_refl inv
    | some h => exact turns_remove inv (inv.at?_eq_some_iff.1 hat).1
  | clear => exact turns_clear inv
  | setCapacity n =>
    have inv' : Inv { s with capacity := n } := { inv with }
    exact (turns_evictWithin _ inv').congr rfl rfl rfl rfl
  | limitNodes n => exact (turns_refl inv).congr rfl rfl rfl rfl
  | setWindow d =>
    have inv' : Inv { s with policy := s.policy.withWindow d } := { inv with }
    exact (turns_evictWithin _ inv').congr rfl rfl rfl rfl
  | writeIfPresent k v | write k v =>
    simp only [apply, Prod.map_snd, write?, id]
    cases hk : s.find? k with
    | none => exact turns_refl inv
    | some h => exact (turns_refl inv).overwrite h v
  | ensure k => exact turns_ensure inv k
  | ensureWrite k v =>
    have t := turns_ensure inv k
    simp only [apply]
    split <;> rename_i heq <;> rw [heq] at t
    · exact t.overwrite _ v
    · exact t
  | advance d => exact turns_clock inv (s.clock.advance d)

/-- **One operation.** The generation of a slot advances by one if the record in it leaves, and a
record that leaves does not come back in the same operation. -/
theorem turns_perform (inv : s.Inv) (op : Op κ ν) : Turns s (s.perform op).2 := by
  cases op with
  | query q => exact turns_refl inv
  | command m => exact turns_apply inv m

end RecencyCache.Shelf
