import RecencyCache.Proofs.Cache.Run
import RecencyCache.Proofs.Shelf.Positions
import RecencyCache.Proofs.Shelf.Tenancy

/-!
# How long a position leads to its entry

The entry in a slot leaves when it is evicted, popped, removed or cleared away; `turnovers` counts
how often that happened to a slot in the course of a run (`history`). The generation of the slot has
advanced as often, in 32 bits (`Course.generation`), so a position that was handed out before the
run leads to its entry for as long as the entry is there, and to nothing afterwards, if the slot
turned over fewer than `2 ^ 32` times: `leads_iff_stays`.
-/
namespace RecencyCache.Cache

variable {κ ν : Type} [BEq κ]

/-! ## Turnovers -/

/-- The entry in slot `i`. -/
def tenant? (c : Cache κ ν) (i : SlotId) : Option (Entry κ ν) := (c.nodes.get? i).map Node.entry

/-- Whether the entry in slot `i` left in the step from `c` to `c'`: the slot is vacant then, or has
an entry with another key. -/
def left (c c' : Cache κ ν) (i : SlotId) : Bool :=
  (c.tenant? i).any fun e => !(c'.tenant? i).any (·.key == e.key)

/-- The caches before each of some operations, and the one after the last. -/
def history [Inhabited ν] (c : Cache κ ν) :
    List (Op κ ν) → Except Fault (List (Cache κ ν) × Cache κ ν)
  | [] => pure ([], c)
  | op :: ops => do
    let (_, c') ← c.perform op
    let (earlier, last) ← c'.history ops
    pure (c :: earlier, last)

/-- How often the entry in slot `i` left, from each cache to the next. -/
def turnovers (i : SlotId) : List (Cache κ ν) → Cache κ ν → Nat
  | [], _ => 0
  | c :: rest, last => (if c.left (rest.headD last) i then 1 else 0) + turnovers i rest last

theorem turnovers_le_length (i : SlotId) (earlier : List (Cache κ ν)) (last : Cache κ ν) :
    turnovers i earlier last ≤ earlier.length := by
  induction earlier with
  | nil => exact Nat.le_refl 0
  | cons c rest ih =>
    rw [turnovers, List.length_cons]
    split <;> omega

/-- A history begins with one operation and goes on with that of the others. -/
theorem exists_of_history_cons [Inhabited ν] {c last : Cache κ ν} {op : Op κ ν}
    {ops : List (Op κ ν)} {earlier : List (Cache κ ν)}
    (h : c.history (op :: ops) = .ok (earlier, last)) : ∃ answer c' rest,
      c.perform op = .ok (answer, c') ∧ c'.history ops = .ok (rest, last) ∧
        earlier = c :: rest := by
  rw [history] at h
  obtain ⟨⟨answer, c'⟩, hop, h⟩ := Fault.exists_of_bind h
  obtain ⟨⟨rest, last'⟩, hrest, h⟩ := Fault.exists_of_bind h
  cases h
  exact ⟨answer, c', rest, hop, hrest, rfl⟩

theorem length_history [Inhabited ν] {c last : Cache κ ν} {ops : List (Op κ ν)}
    {earlier : List (Cache κ ν)} (h : c.history ops = .ok (earlier, last)) :
    earlier.length = ops.length := by
  induction ops generalizing c earlier with
  | nil =>
    cases h
    rfl
  | cons op ops ih =>
    obtain ⟨_, c', rest, -, hrest, rfl⟩ := exists_of_history_cons h
    rw [List.length_cons, List.length_cons, ih hrest]

/-- A slot turns over at most once in one operation. -/
theorem turnovers_le [Inhabited ν] {c last : Cache κ ν} {ops : List (Op κ ν)}
    {earlier : List (Cache κ ν)} (h : c.history ops = .ok (earlier, last)) (i : SlotId) :
    turnovers i earlier last ≤ ops.length := by
  rw [← length_history h]
  exact turnovers_le_length i earlier last

/-! ## Where a position leads -/

/-- Position `pos` leads to entry `e` with key `k`, which stands between the entries `newer` and
`older` and is followed by the one at `next`. -/
structure Leads (c : Cache κ ν) (pos : Position) (k : κ) (newer : List (Entry κ ν))
    (e : Entry κ ν) (older : List (Entry κ ν)) (next : Option Position) : Prop where
  entries : c.toList = .ok (newer ++ e :: older)
  entryAt : c.entryAt? pos = .ok (some e)
  find : c.find? k = .ok (some e)
  position : c.position? k = .ok (some pos)
  positionAfter : c.positionAfter? pos = .ok next
  /-- `next` is the position of the entry that follows, if there is one. -/
  follower : older.head?.mapM (c.position? ·.key) = .ok (next.map some)
  eraseAt : ∃ c', c.eraseAt pos = .ok (next, c') ∧ c'.toList = .ok (newer ++ older)

namespace Shows

variable {c c' last : Cache κ ν} {s s' : Shelf κ ν} {h : Held κ ν} {i : SlotId} {k : κ}

theorem tenant?_eq (sh : c.Shows s) (i : SlotId) :
    c.tenant? i = (s.tenant? i).map Held.entry := by
  have hload := congrArg (Option.map (·.1.entry)) (sh.stores.load i)
  rw [Shelf.load?, Option.map_map, Option.map_map] at hload
  exact hload

theorem left_eq (sh : c.Shows s) (sh' : c'.Shows s') (i : SlotId) :
    c.left c' i = s.left s' i := by
  unfold left Shelf.left
  rw [sh.tenant?_eq, sh'.tenant?_eq]
  cases s.tenant? i <;> cases s'.tenant? i <;> rfl

variable [EquivBEq κ]

theorem contains_iff (sh : c.Shows s) :
    c.contains k = .ok true ↔ ∃ h ∈ s.held, (h.key == k) = true := by
  rw [sh.contains_eq, Except.ok.injEq, Option.isSome_iff_exists]
  simp only [sh.inv.find?_eq_some_iff]

theorem exists_leads (sh : c.Shows s) {x : Held κ ν} {pos : Position}
    (hat : s.at? pos = some x) (hk : (x.key == k) = true) :
    ∃ newer older next, c.Leads pos k newer x.entry older next := by
  obtain ⟨hx, hpos⟩ := sh.inv.at?_eq_some_iff.1 hat
  obtain ⟨a, b, hs⟩ := List.append_of_mem hx
  have hfind : s.find? k = some x := sh.inv.find?_eq_some_iff.2 ⟨hx, hk⟩
  have hafter : s.after? x = b.head? := sh.inv.after?_eq hs
  obtain ⟨c', hc', sh'⟩ := sh.follows_eraseAt pos
  rw [Shelf.eraseAt, hat] at hc' sh'
  refine ⟨a.map Held.entry, b.map Held.entry, b.head?.map s.positionOf, ?_⟩
  refine ⟨?_, ?_, ?_, ?_, ?_, ?_, c', ?_, ?_⟩
  · rw [sh.toList_eq, Shelf.entries, hs, List.map_append, List.map_cons]
  · rw [sh.entryAt?_eq, hat, Option.map_some]
  · rw [sh.find?_eq, hfind, Option.map_some]
  · rw [sh.position?_eq, hfind, Option.map_some, hpos]
  · rw [sh.positionAfter?_eq, hat, Option.bind_some, hafter]
  · rw [List.head?_map, Option.map_map]
    refine Fault.mapM_map_ok fun y hy => ?_
    have hmem : y ∈ s.held := sh.inv.mem_of_after? hx (hafter.trans hy)
    rw [sh.position?_eq, sh.inv.find?_eq_some_iff.2 ⟨hmem, BEq.rfl⟩]
    rfl
  · rw [hc']
    simp only [Shelf.remove, hafter]
    congr 2
    refine Option.map_congr fun y hy => ?_
    exact sh.inv.positionOf_drop hx (hafter.trans hy)
  · rw [sh'.toList_eq, ← List.map_append, ← sh.inv.without_eq hs]
    rfl

end Shows

/-! ## A run -/

/-- What a run from `c`, which shows `s`, to `last`, which shows `t`, did to slots and keys. -/
structure Course (c : Cache κ ν) (s t : Shelf κ ν) (earlier : List (Cache κ ν))
    (last : Cache κ ν) : Prop where
  shows_last : last.Shows t
  start : earlier.headD last = c
  generation : ∀ i, t.generation i = s.generation i + UInt32.ofNat (turnovers i earlier last)
  /-- The record in a slot that did not turn over was there all the time, under its key. -/
  stays : ∀ h ∈ s.held, ∀ k, (h.key == k) = true → turnovers h.slot earlier last = 0 →
    (∀ x ∈ earlier ++ [last], x.contains k = .ok true) ∧
      ∃ x ∈ t.held, x.slot = h.slot ∧ (x.key == k) = true
  /-- The slot of a key that was there all the time did not turn over. -/
  keeps : ∀ h ∈ s.held, ∀ k, (h.key == k) = true →
    (∀ x ∈ earlier ++ [last], x.contains k = .ok true) → turnovers h.slot earlier last = 0

variable {c c' last : Cache κ ν} {s s' t : Shelf κ ν} {earlier : List (Cache κ ν)}

/-- A generation has come round after a multiple of `2 ^ 32` turnovers. -/
theorem ofNat_eq_zero_iff {n : Nat} : UInt32.ofNat n = 0 ↔ UInt32.size ∣ n := by
  rw [UInt32.ofNat_eq_iff_mod_eq_toNat, UInt32.toNat_zero, Nat.dvd_iff_mod_eq_zero]

/-- A position leads somewhere if its slot is occupied and its generation came round. -/
theorem Course.exists_at?_iff (course : Course c s t earlier last) {h : Held κ ν} :
    (∃ x, t.at? (s.positionOf h) = some x) ↔
      h.slot ∈ t.slots ∧ UInt32.size ∣ turnovers h.slot earlier last := by
  rw [course.shows_last.inv.exists_at?_iff, ← ofNat_eq_zero_iff]
  unfold Shelf.positionOf
  rw [course.generation, UInt32.add_eq_left]

theorem Course.contains_iff (course : Course c s t earlier last) {h : Held κ ν} {k : κ}
    (hh : h ∈ s.held) (hk : (h.key == k) = true) :
    (∀ x ∈ earlier ++ [last], x.contains k = .ok true) ↔ turnovers h.slot earlier last = 0 :=
  ⟨course.keeps h hh k hk, fun hzero => (course.stays h hh k hk hzero).1⟩

variable [EquivBEq κ]

theorem course_refl (sh : c.Shows s) : Course c s s [] c where
  shows_last := sh
  start := rfl
  generation i := by
    show s.generation i = s.generation i + 0
    rw [UInt32.add_zero]
  stays h hh k hk _ := by
    refine ⟨fun x hx => ?_, h, hh, rfl, hk⟩
    rw [List.nil_append, List.mem_singleton] at hx
    rw [hx]
    exact sh.contains_iff.2 ⟨h, hh, hk⟩
  keeps _ _ _ _ _ := rfl

/-- One more operation before a run. -/
theorem Course.cons (sh : c.Shows s) (sh' : c'.Shows s') (turns : s.Turns s')
    (course : Course c' s' t earlier last) : Course c s t (c :: earlier) last := by
  have hturn : ∀ i, turnovers i (c :: earlier) last =
      (if s.left s' i then 1 else 0) + turnovers i earlier last := by
    intro i
    rw [turnovers, course.start, sh.left_eq sh']
  have hmem : c' ∈ earlier ++ [last] := by
    rw [← course.start]
    cases earlier <;> simp
  refine ⟨course.shows_last, rfl, fun i => ?_, fun h hh k hk hzero => ?_, fun h hh k hk hall => ?_⟩
  · rw [course.generation i, turns.generation i, hturn, UInt32.ofNat_add, ← UInt32.add_assoc]
    split
    · rfl
    · congr 1
      exact (UInt32.add_zero _).symm
  · rw [hturn] at hzero
    have hleft : s.left s' h.slot = false := by
      by_contra hl
      rw [Bool.not_eq_false] at hl
      rw [if_pos hl] at hzero
      omega
    have hrest : turnovers h.slot earlier last = 0 := by omega
    obtain ⟨x, hx, hslot, hxk⟩ := Shelf.exists_of_left_eq_false sh.inv hh hleft
    rw [← hslot] at hrest
    obtain ⟨hall, y, hy, hyslot, hyk⟩ := course.stays x hx k (PartialEquivBEq.trans hxk hk) hrest
    refine ⟨fun d hd => ?_, y, hy, hyslot.trans hslot, hyk⟩
    rcases List.mem_cons.1 hd with rfl | hd
    · exact sh.contains_iff.2 ⟨h, hh, hk⟩
    · exact hall d hd
  · have hleft : s.left s' h.slot = false := by
      by_contra hl
      rw [Bool.not_eq_false] at hl
      obtain ⟨x, hx, hxk⟩ := sh'.contains_iff.1 (hall c' (List.mem_cons_of_mem c hmem))
      have hnone := Shelf.find?_eq_none_iff.1 (turns.gone h hh hl) x hx
      rw [PartialEquivBEq.trans hxk (BEq.symm hk)] at hnone
      cases hnone
    obtain ⟨x, hx, hslot, hxk⟩ := Shelf.exists_of_left_eq_false sh.inv hh hleft
    have hrest := course.keeps x hx k (PartialEquivBEq.trans hxk hk) fun d hd =>
      hall d (List.mem_cons_of_mem c hd)
    rw [hturn, hleft, ← hslot, hrest]
    rfl

variable [Inhabited ν]

theorem Shows.exists_course (sh : c.Shows s) (ops : List (Op κ ν)) :
    ∃ earlier last, c.history ops = .ok (earlier, last) ∧
      Course c s (s.run ops).2 earlier last := by
  induction ops generalizing c s with
  | nil => exact ⟨[], c, rfl, course_refl sh⟩
  | cons op ops ih =>
    obtain ⟨c', hc', sh'⟩ := sh.follows_perform op
    obtain ⟨earlier, last, hlast, course⟩ := ih sh'
    refine ⟨c :: earlier, last, by simp [history, hc', hlast], ?_⟩
    exact course.cons sh sh' (Shelf.turns_perform sh.inv op)

/-! ## The life of a position -/

variable {hash : κ → UInt64} {c₁ : Cache κ ν} {op : Op κ ν} {pos : Position}

/-- A position that an operation answers is that of an entry. -/
theorem Reachable.exists_positionOf (hc : c.Reachable hash) (ha : Agrees hash)
    (hop : c.perform op = .ok (.position (some pos), c₁)) :
    ∃ s : Shelf κ ν, c₁.Shows s ∧ ∃ h ∈ s.held, s.positionOf h = pos ∧
      c₁.entryAt? pos = .ok (some h.entry) := by
  obtain ⟨s, sh⟩ := hc.exists_shows ha
  obtain ⟨hanswer, sh'⟩ := (sh.follows_perform op).of_ok hop
  obtain ⟨h, hh, hpos⟩ := Shelf.exists_of_position sh.inv hanswer.symm
  refine ⟨_, sh', h, hh, hpos, ?_⟩
  rw [sh'.entryAt?_eq, sh'.inv.at?_eq_some_iff.2 ⟨hh, hpos⟩, Option.map_some]

/-- **Lifetime of a position.** While its slot has turned over fewer than `2 ^ 32` times, a position
leads somewhere just as long as the entry it was answered for stays in the cache, and then it leads
to that entry. -/
theorem leads_iff_stays (ha : Agrees hash) (hc : c.Reachable hash)
    (hop : c.perform op = .ok (.position (some pos), c₁)) :
    ∃ e, c₁.entryAt? pos = .ok (some e) ∧ ∀ k, (e.key == k) = true → ∀ ops,
      ∃ earlier last found, c₁.history ops = .ok (earlier, last) ∧
        last.entryAt? pos = .ok found ∧ (turnovers pos.slot earlier last < UInt32.size →
          (found.isSome ↔ ∀ x ∈ earlier ++ [last], x.contains k = .ok true) ∧
          ∀ e' ∈ found, ∃ newer older next, last.Leads pos k newer e' older next) := by
  obtain ⟨s, sh, h, hh, rfl, hentry⟩ := hc.exists_positionOf ha hop
  refine ⟨h.entry, hentry, fun k hk ops => ?_⟩
  obtain ⟨earlier, last, hlast, course⟩ := sh.exists_course ops
  have sh' := course.shows_last
  refine ⟨earlier, last, _, hlast, sh'.entryAt?_eq _, fun hlt => ?_⟩
  rw [Option.isSome_map, Option.isSome_iff_exists, course.exists_at?_iff, course.contains_iff hh hk]
  constructor
  · constructor
    · rintro ⟨-, hdvd⟩
      exact Nat.eq_zero_of_dvd_of_lt hdvd hlt
    · intro hzero
      obtain ⟨-, x, hx, hslot, -⟩ := course.stays h hh k hk hzero
      exact ⟨Shelf.mem_slots.2 ⟨x, hx, hslot⟩, hzero ▸ Nat.dvd_zero _⟩
  · intro e' he'
    obtain ⟨x, hat', rfl⟩ := Option.map_eq_some_iff.1 he'
    obtain ⟨-, hdvd⟩ := course.exists_at?_iff.1 ⟨x, hat'⟩
    have hzero := Nat.eq_zero_of_dvd_of_lt hdvd hlt
    -- the record at the position is the one that stayed
    obtain ⟨-, y, hy, hslot, hyk⟩ := course.stays h hh k hk hzero
    obtain ⟨hx, hpos⟩ := sh'.inv.at?_eq_some_iff.1 hat'
    have hxy : x = y := sh'.inv.eq_of_slot hy hx ((congrArg Position.slot hpos).trans hslot.symm)
    exact sh'.exists_leads hat' (hxy ▸ hyk)

/-- The life of a position of the first of three entries, in a cache for two. -/
theorem leads_until_evicted : ∃ c, (empty 2 1 .bySize HashScheme.identity.hash :
      Cache Int64 Unit).perform (.command (.push none ⟨0, ()⟩)) = .ok (.flag true, c) ∧
    c.perform (.query (.position 0)) = .ok (.position (some ⟨0, 0⟩), c) ∧
    ∃ earlier last found,
      c.history [.command (.push none ⟨1, ()⟩), .command (.push none ⟨2, ()⟩)] =
        .ok (earlier, last) ∧ last.entryAt? ⟨0, 0⟩ = .ok found ∧
      (found.isSome ↔ ∀ x ∈ earlier ++ [last], x.contains 0 = .ok true) ∧
      ∀ e' ∈ found, ∃ newer older next, last.Leads ⟨0, 0⟩ 0 newer e' older next := by
  have ha := agrees_of_lawful (κ := Int64) HashScheme.identity.hash
  have sh := shows_empty (ν := Unit) ha 2 1 .bySize .initial
  obtain ⟨c, hc, sh'⟩ := sh.follows_perform (.command (.push none ⟨0, ()⟩))
  have hpos : c.perform (.query (.position 0)) = .ok (.position (some ⟨0, 0⟩), c) := by
    rw [perform, sh'.ask_eq]
    rfl
  have hentry : c.entryAt? ⟨0, 0⟩ = .ok (some ⟨0, ()⟩) := by
    rw [sh'.entryAt?_eq]
    rfl
  obtain ⟨e, he, hlife⟩ := leads_iff_stays ha ((Reachable.empty ..).perform hc) hpos
  rw [hentry, Except.ok.injEq, Option.some.injEq] at he
  obtain ⟨earlier, last, found, hlast, hfound, hlead⟩ := hlife 0 (he ▸ rfl)
    [.command (.push none ⟨1, ()⟩), .command (.push none ⟨2, ()⟩)]
  exact ⟨c, hc, hpos, earlier, last, found, hlast, hfound,
    hlead (Nat.lt_of_le_of_lt (turnovers_le hlast 0) (by decide))⟩

end RecencyCache.Cache
