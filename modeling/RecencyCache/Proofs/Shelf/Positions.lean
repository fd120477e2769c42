import RecencyCache.Proofs.Shelf.Invariant

/-!
# Positions that operations answer

Six operations answer positions: those of a key, of both ends, of the record behind a position, and
of the record behind one that was erased. Each of them is the position of a record that the shelf
still holds after the operation: `exists_of_position`.
-/
namespace RecencyCache.Shelf

variable {κ ν : Type} {s : Shelf κ ν} {h x : Held κ ν}

theorem exists_of_ofExcept {α : Type} {answer : α → Answer κ ν} {r : Except Refusal α}
    {pos : Option Position} (hr : Answer.ofExcept answer r = .position pos) :
    ∃ a, answer a = .position pos := by
  cases r with
  | ok a => exact ⟨a, hr⟩
  | error r => cases hr

theorem exists_of_map_positionOf {o : Option (Held κ ν)} {pos : Position}
    (ho : ∀ h, o = some h → h ∈ s.held)
    (hp : (Answer.position (o.map s.positionOf) : Answer κ ν) = .position (some pos)) :
    ∃ h ∈ s.held, s.positionOf h = pos := by
  rw [Answer.position.injEq, Option.map_eq_some_iff] at hp
  obtain ⟨h, hh, hpos⟩ := hp
  exact ⟨h, ho h hh, hpos⟩

variable [BEq κ]

theorem exists_of_ask (inv : s.Inv) {q : Query κ} {pos : Position}
    (hq : s.ask q = .position (some pos)) : ∃ h ∈ s.held, s.positionOf h = pos := by
  cases q with
  | position k => exact exists_of_map_positionOf (fun h hk => mem_of_find? hk) hq
  | newestPosition => exact exists_of_map_positionOf (fun h hh => List.mem_of_head? hh) hq
  | oldestPosition => exact exists_of_map_positionOf (fun h hh => mem_of_oldest? hh) hq
  | positionAfter pos =>
    refine exists_of_map_positionOf (fun x hx => ?_) hq
    obtain ⟨h, hat, hx⟩ := Option.bind_eq_some_iff.1 hx
    exact inv.mem_of_after? (inv.at?_eq_some_iff.1 hat).1 hx
  | get k =>
    obtain ⟨a, ha⟩ := exists_of_ofExcept hq
    cases ha
  | _ => cases hq

/-- A removal leaves the position of the record that follows as it is. -/
theorem Inv.positionOf_drop (inv : s.Inv) (hh : h ∈ s.held) (hx : s.after? h = some x) :
    (s.drop h).positionOf x = s.positionOf x := by
  obtain ⟨a, b, hs⟩ := List.append_of_mem hh
  rw [inv.after?_eq hs] at hx
  have hne : h.slot ≠ x.slot :=
    (inv.slot_ne hs (List.mem_append_right a (List.mem_of_head? hx))).symm
  simp only [positionOf, drop, renewed, if_neg hne]

theorem exists_of_remove (inv : s.Inv) (hh : h ∈ s.held) {pos : Position}
    (hp : (Answer.position (s.remove h).1 : Answer κ ν) = .position (some pos)) :
    ∃ x ∈ (s.remove h).2.held, (s.remove h).2.positionOf x = pos :=
  exists_of_map_positionOf (s := s.drop h) (fun _ hx => inv.mem_drop_of_after? hh hx) hp

/-- **One operation.** A position that it answers is that of a record, in the shelf after it. -/
theorem exists_of_position [Inhabited ν] (inv : s.Inv) {op : Op κ ν} {pos : Position}
    (hop : (s.perform op).1 = .position (some pos)) :
    ∃ h ∈ (s.perform op).2.held, (s.perform op).2.positionOf h = pos := by
  cases op with
  | query q => exact exists_of_ask inv hop
  | command m =>
    cases m with
    | erase k =>
      simp only [perform, apply, Prod.map_fst, Prod.map_snd, erase, id] at hop ⊢
      cases hk : s.find? k with
      | none => simp [hk] at hop
      | some h =>
        rw [hk] at hop
        exact exists_of_remove inv (mem_of_find? hk) hop
    | eraseAt p =>
      simp only [perform, apply, Prod.map_fst, Prod.map_snd, eraseAt, id] at hop ⊢
      cases hat : s.at? p with
      | none => simp [hat] at hop
      | some h =>
        rw [hat] at hop
        exact exists_of_remove inv (inv.at?_eq_some_iff.1 hat).1 hop
    | push | pop | write | ensure =>
      obtain ⟨a, ha⟩ := exists_of_ofExcept hop
      cases ha
    | ensureWrite k v =>
      simp only [perform, apply] at hop
      split at hop <;> cases hop
    | _ => cases hop

end RecencyCache.Shelf
