import RecencyCache.Proofs.Cache.Nesting
import RecencyCache.Proofs.Cache.Refusals
import RecencyCache.Proofs.Roster.Pushes
import RecencyCache.Proofs.Shelf.Bare

/-!
# Making sure that a key has a value

To ensure a key answers the slot of its entry. If the key is absent, the entry is pushed first, and
then the slot is not looked up, but taken from the head of the order. `ensure_hands_out` says that
this is the right one, whichever way the entry came in: what is written there becomes the value of
the key and of no other one, and nothing else changes.
-/
namespace RecencyCache

/-! ## On the shelf -/

namespace Shelf

variable {κ ν : Type} {s : Shelf κ ν} {h x : Held κ ν} {a b : List (Held κ ν)} {k : κ}

/-- What overwriting the record in the slot of `h` makes of a record. -/
def rewritten (h : Held κ ν) (v : ν) (x : Held κ ν) : Held κ ν :=
  if x.slot = h.slot then { x with record.entry.value := v } else x

theorem slot_rewritten (h x : Held κ ν) (v : ν) : (rewritten h v x).slot = x.slot := by
  unfold rewritten
  split <;> rfl

theorem key_rewritten (h x : Held κ ν) (v : ν) : (rewritten h v x).key = x.key := by
  unfold rewritten
  split <;> rfl

variable [BEq κ]

theorem find?_overwrite (s : Shelf κ ν) (h : Held κ ν) (v : ν) (k : κ) :
    (s.overwrite h v).find? k = (s.find? k).map (rewritten h v) := by
  have hheld : (s.overwrite h v).held = s.held.map (rewritten h v) := rfl
  rw [find?, hheld, List.find?_map, find?]
  simp only [Function.comp_def, key_rewritten]

/-- One record has another value. -/
theorem held_overwrite (inv : s.Inv) (hs : s.held = a ++ h :: b) (v : ν) :
    (s.overwrite h v).held = a ++ { h with record.entry.value := v } :: b := by
  have hother : ∀ x ∈ a ++ b, rewritten h v x = id x := fun x hx => if_neg (inv.slot_ne hs hx)
  have ha : a.map (rewritten h v) = a := (List.map_congr_left fun x hx =>
    hother x (List.mem_append_left b hx)).trans (List.map_id a)
  have hb : b.map (rewritten h v) = b := (List.map_congr_left fun x hx =>
    hother x (List.mem_append_right a hx)).trans (List.map_id b)
  have hh : rewritten h v h = { h with record.entry.value := v } := if_pos rfl
  show s.held.map (rewritten h v) = _
  rw [hs, List.map_append, List.map_cons, ha, hb, hh]

variable [EquivBEq κ]

/-- What a push leaves of the other keys was there before it. -/
theorem find?_of_push {e : Entry κ ν} (inv : s.Inv) (hk : (k == e.key) = false)
    (hx : (s.push e).2.find? k = some x) : ∃ y, s.find? k = some y ∧ y.record = x.record := by
  obtain ⟨hmem, hxk⟩ := (inv_push inv e).find?_eq_some_iff.1 hx
  have hroster : (s.roster.push e).2 = (s.push e).2.roster :=
    congrArg Prod.snd (roster_push inv e).symm
  have hrecord : x.record ∈ (s.roster.push e).2.records := by
    rw [hroster]
    exact List.mem_map_of_mem hmem
  have hold : x.record ∈ s.roster.records := by
    rcases s.roster.push_cases e with ⟨r, hr⟩ | ⟨b, -, hsub⟩
    · rwa [hr] at hrecord
    · rcases List.mem_cons.1 (hsub.subset hrecord) with hfront | hbehind
      · have hkey : x.key = e.key := congrArg (·.entry.key) hfront
        rw [hkey, BEq.comm, hk] at hxk
        cases hxk
      · exact List.mem_of_mem_eraseP hbehind
  obtain ⟨y, hy, hyx⟩ := List.mem_map.1 hold
  have hyk : (y.key == k) = true := by rwa [show y.key = x.key from congrArg (·.entry.key) hyx]
  exact ⟨y, inv.find?_eq_some_iff.2 ⟨hy, hyk⟩, hyx⟩

end Shelf

/-! ## In a cache -/

namespace Cache

variable {κ ν : Type} [BEq κ]

/-- `c'` is `c`, but for the value of key `k`, which is `v`: all entries have the keys, as they are
spelled, the places, the times and the positions that they had. -/
structure Rewrites (c c' : Cache κ ν) (k : κ) (v : ν) : Prop where
  records : ∃ newer x older, c.records = .ok (newer ++ x :: older) ∧ (x.entry.key == k) = true ∧
    c'.records = .ok (newer ++ { x with entry.value := v } :: older)
  position? : ∀ key, c'.position? key = c.position? key
  summary : c'.summary = c.summary
  get? : c'.get? k = .ok (some v)
  others : ∀ key, (key == k) = false → c'.get? key = c.get? key

namespace Shows

variable [EquivBEq κ] {c c' : Cache κ ν} {s : Shelf κ ν} {h : Held κ ν} {k : κ}

theorem rewrites (sh : c.Shows s) {v : ν} (sh' : c'.Shows (s.overwrite h v))
    (hk : s.find? k = some h) : c.Rewrites c' k v := by
  obtain ⟨hh, hhk⟩ := sh.inv.find?_eq_some_iff.1 hk
  obtain ⟨a, b, hs⟩ := List.append_of_mem hh
  have hself : Shelf.rewritten h v h = { h with record.entry.value := v } := if_pos rfl
  refine ⟨⟨a.map Held.record, h.record, b.map Held.record, ?_, hhk, ?_⟩, fun key => ?_, ?_, ?_,
    fun key hkey => ?_⟩
  · rw [sh.records_eq, Shelf.roster, hs, List.map_append, List.map_cons]
  · rw [sh'.records_eq, Shelf.roster, Shelf.held_overwrite sh.inv hs, List.map_append,
      List.map_cons]
  · rw [sh'.position?_eq, sh.position?_eq, Shelf.find?_overwrite, Option.map_map]
    congr 2
    funext x
    simp only [Function.comp, Shelf.positionOf, Shelf.slot_rewritten, Shelf.overwrite]
  · rw [sh'.summary_eq, sh.summary_eq, Shelf.summary, Shelf.size, Shelf.overwrite, List.length_map]
    rfl
  · rw [sh'.get?_eq, Shelf.find?_overwrite, hk, Option.map_some, hself]
    rfl
  · rw [sh'.get?_eq, sh.get?_eq, Shelf.find?_overwrite, Option.map_map]
    cases hx : s.find? key with
    | none => rfl
    | some x =>
      -- the record of another key lies in another slot
      obtain ⟨hmem, hxk⟩ := sh.inv.find?_eq_some_iff.1 hx
      have hne : x.slot ≠ h.slot := by
        intro hslot
        rw [sh.inv.eq_of_slot hh hmem hslot, BEq.congr_left hhk, BEq.comm, hkey] at hxk
        cases hxk
      simp only [Option.map_some, Function.comp, Shelf.rewritten, if_neg hne]

variable [Inhabited ν] {d : Cache κ ν} {t : Shelf κ ν}

/-- What is answered and written where the slot of the key is handed out. -/
theorem exists_ensureWrite (sh : d.Shows t) (hk : t.find? k = some h)
    (hslot : c.ensureSlot k = .ok (.ok h.slot, d)) (v : ν) :
    c.ensure k = .ok (.ok h.entry.value, d) ∧
      ∃ c', c.ensureWrite k v = .ok (.ok h.entry.value, c') ∧ d.Rewrites c' k v := by
  have hh := Shelf.mem_of_find? hk
  obtain ⟨c', hc', sh'⟩ := sh.exists_exchange hh v
  refine ⟨?_, c', ?_, sh.rewrites sh' hk⟩
  · simp only [ensure, hslot, sh.entryIn_eq hh, Fault.ok_bind, Fault.pure_eq]
  · simp only [ensureWrite, hslot, hc', Fault.ok_bind, Fault.pure_eq]

theorem ensureSlot_of_present (sh : c.Shows s) (hk : s.find? k = some h) :
    c.ensureSlot k = .ok (.ok h.slot, c) := by
  rw [ensureSlot, sh.slot?_eq, hk]
  rfl

/-- The slot at the head of the order after a push is that of the pushed entry. -/
theorem exists_ensureSlot_of_absent (sh : c.Shows s) (hk : s.find? k = none)
    (hpush : (s.push ⟨k, default⟩).1 = .ok true) :
    ∃ d h, c.push ⟨k, default⟩ = .ok (.ok true, d) ∧ d.Shows (s.push ⟨k, default⟩).2 ∧
      (s.push ⟨k, default⟩).2.find? k = some h ∧ h.entry = ⟨k, default⟩ ∧
      c.ensureSlot k = .ok (.ok h.slot, d) := by
  obtain ⟨d, hd, sh'⟩ := sh.follows_push ⟨k, default⟩
  obtain ⟨h, hhead, hentry⟩ := Shelf.head?_push hk hpush
  have hkey : (h.key == k) = true := by
    rw [show h.key = k from congrArg Entry.key hentry]
    exact BEq.rfl
  rw [hpush] at hd
  refine ⟨d, h, hd, sh', sh'.inv.find?_eq_some_iff.2 ⟨List.mem_of_head? hhead, hkey⟩, hentry, ?_⟩
  simp only [ensureSlot, sh.slot?_eq, hk, hd, sh'.head_eq, hhead, Option.map_none, Option.map_some,
    Fault.ok_bind, Fault.pure_eq]

end Shows

variable [EquivBEq κ] [Inhabited ν] {hash : κ → UInt64} {c : Cache κ ν}

/-- **Ensuring hands out the right entry.** If the key is present, its value is answered and the
cache stays as it is. If it is absent, then a default value is pushed: where that is refused, the
refusal is answered and the cache stays as it is; otherwise the default value is answered, and the
cache is the one after the push. What is written instead becomes the value of the key, and all other
entries that are there have the values they had. -/
theorem ensure_hands_out (ha : Agrees hash) (hc : c.Reachable hash) (k : κ) (w : ν) :
    (∃ v c', c.get? k = .ok (some v) ∧ c.ensure k = .ok (.ok v, c) ∧
      c.ensureWrite k w = .ok (.ok v, c') ∧ c.Rewrites c' k w) ∨
    (∃ r, c.get? k = .ok none ∧ c.push ⟨k, default⟩ = .ok (.error r, c) ∧
      c.ensure k = .ok (.error r, c) ∧ c.ensureWrite k w = .ok (.error r, c)) ∨
    ∃ d c', c.get? k = .ok none ∧ c.push ⟨k, default⟩ = .ok (.ok true, d) ∧
      c.ensure k = .ok (.ok default, d) ∧ c.ensureWrite k w = .ok (.ok default, c') ∧
      d.Rewrites c' k w ∧
      ∀ key v, (key == k) = false → c'.get? key = .ok (some v) → c.get? key = .ok (some v) := by
  obtain ⟨s, sh⟩ := hc.exists_shows ha
  have hget := sh.get?_eq k
  cases hk : s.find? k with
  | some h =>
    rw [hk, Option.map_some] at hget
    obtain ⟨hensure, c', hwrite, hrewrites⟩ :=
      sh.exists_ensureWrite hk (sh.ensureSlot_of_present hk) w
    exact .inl ⟨_, c', hget, hensure, hwrite, hrewrites⟩
  | none =>
    rw [hk, Option.map_none] at hget
    rcases Shelf.push_of_absent (e := ⟨k, default⟩) hk with ⟨r, hr⟩ | hpush
    · obtain ⟨n, hroom⟩ := Shelf.exists_noRoom_of_push (congrArg Prod.fst hr)
      have hslot := sh.ensureSlot_of_noRoom hroom
      refine .inr (.inl ⟨.nodeLimitReached n, hget, sh.push_of_noRoom hroom, ?_, ?_⟩)
      · rw [ensure, hslot]
        rfl
      · rw [ensureWrite, hslot]
        rfl
    · obtain ⟨d, h, hd, sh', hfind, hentry, hslot⟩ := sh.exists_ensureSlot_of_absent hk hpush
      obtain ⟨hensure, c', hwrite, hrewrites⟩ := sh'.exists_ensureWrite hfind hslot w
      rw [hentry] at hensure hwrite
      refine .inr (.inr ⟨d, c', hget, hd, hensure, hwrite, hrewrites, fun key v hkey hv => ?_⟩)
      rw [hrewrites.others key hkey, sh'.get?_eq, Except.ok.injEq, Option.map_eq_some_iff] at hv
      obtain ⟨x, hx, rfl⟩ := hv
      obtain ⟨y, hy, hyx⟩ := Shelf.find?_of_push sh.inv hkey hx
      have hvalue : y.entry.value = x.entry.value := congrArg (·.entry.value) hyx
      rw [sh.get?_eq, hy, Option.map_some, hvalue]

/-- In a full cache the entry takes over the slot of the oldest one. -/
theorem ensure_hands_out_of_full : ∃ answers c,
    (empty 2 1 .bySize (HashScheme.constant 0).hash : Cache Int64 Int64).run
      [.command (.push none ⟨0, 5⟩), .command (.push none ⟨1, 6⟩)] = .ok (answers, c) ∧
    ((∃ v c', c.get? 2 = .ok (some v) ∧ c.ensure 2 = .ok (.ok v, c) ∧
      c.ensureWrite 2 7 = .ok (.ok v, c') ∧ c.Rewrites c' 2 7) ∨
    (∃ r, c.get? 2 = .ok none ∧ c.push ⟨2, default⟩ = .ok (.error r, c) ∧
      c.ensure 2 = .ok (.error r, c) ∧ c.ensureWrite 2 7 = .ok (.error r, c)) ∨
    ∃ d c', c.get? 2 = .ok none ∧ c.push ⟨2, default⟩ = .ok (.ok true, d) ∧
      c.ensure 2 = .ok (.ok default, d) ∧ c.ensureWrite 2 7 = .ok (.ok default, c') ∧
      d.Rewrites c' 2 7 ∧
      ∀ key v, (key == 2) = false → c'.get? key = .ok (some v) → c.get? key = .ok (some v)) := by
  have ha := agrees_of_lawful (κ := Int64) (HashScheme.constant 0).hash
  have sh := shows_empty (ν := Int64) ha 2 1 .bySize .initial
  obtain ⟨c, hc, -⟩ := sh.follows_run _
  exact ⟨_, c, hc, ensure_hands_out ha ((Reachable.empty ..).run hc) 2 7⟩

end Cache
end RecencyCache
