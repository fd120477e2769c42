import RecencyCache.Proofs.Cache.Script
import RecencyCache.Proofs.Cache.Staleness

/-!
# A cleared cache is a new one

After a clearing a cache shows the same as a new cache with its settings in every script, but for
the events that it had counted before: `recite_clear`. It uses other slots, and starts them in other
generations. Positions tell the two apart in one way: after another clearing the slots are used in
an order that depends on how many there are, and a position from before that clearing is outdated in
both caches only for as long as no generation has come round (`Line.Timely`). After `2 ^ 32` lines
it may lead to an entry in one of them: `cleared_cache_differs`.
-/
namespace RecencyCache.Cache

variable {κ ν : Type} [BEq κ] {c c' : Cache κ ν} {s t : Shelf κ ν} {hash : κ → UInt64}

/-! ## Scripts -/

/-- A new cache of the same kind. -/
def renewed (c : Cache κ ν) : Cache κ ν :=
  build c.capacity c.chainCount c.nodes.limit c.policy c.hash c.clock

theorem Shows.shows_renewed (sh : c.Shows s) : c.renewed.Shows
    (Shelf.fresh s.capacity s.chainCount s.limit s.policy s.hash s.clock) := by
  rw [renewed, sh.capacity, Cache.chainCount, sh.chainCount, sh.stores.limit, sh.policy, sh.hash,
    sh.clock]
  exact shows_build sh.agrees _ _ _ _ _

theorem Shows.alike_clear (sh : c.Shows s) : Shelf.Alike
    (Shelf.fresh s.capacity s.chainCount s.limit s.policy s.hash s.clock) s.clear where
  limit := rfl
  capacity := rfl
  policy := rfl
  clock := rfl
  hash := rfl
  chainCount := (Nat.max_eq_left (sh.chainCount ▸ c.chains.heads_pos)).symm

theorem Shows.tally_clear (sh : c.Shows s) (n : Nat) :
    s.clear.tally.among n = (Tally.among {} n).plus c.tally := by
  rw [sh.tally]
  simp [Shelf.clear, Tally.among, Tally.plus]

variable [EquivBEq κ] [Inhabited ν]

/-- **A script.** Two caches whose shelves are abreast show the same after each of its lines, but
for the event counts. -/
theorem exists_recite {m : Relabel} {lines script : List (Line κ ν)} {A A' : List (Answer κ ν)}
    (sh : c.Shows s) (sh' : c'.Shows t) (ab : Shelf.Abreast m lines A A' s t)
    (htimely : Line.Timely (lines ++ script)) : ∃ scenes, c.recite A script = .ok scenes ∧
      c'.recite A' script = .ok (scenes.map (·.plus m.counted)) := by
  induction script generalizing m c c' s t lines A A' with
  | nil => exact ⟨[], rfl, rfl⟩
  | cons l script ih =>
    obtain ⟨c₁, hc₁, sh₁⟩ := sh.follows_follow A l
    obtain ⟨c₁', hc₁', sh₁'⟩ := sh'.follows_follow A' l
    have hline : ∀ u j, l = .use u j →
        lines.length ≤ j + UInt32.size ∨ ¬ Line.ClearedAfter lines j := by
      rintro u j rfl
      have hk := htimely lines.length u j (by simp)
      rwa [List.take_left] at hk
    obtain ⟨⟨m₁, hcounted, ab₁⟩, hscene⟩ := ab.follow sh.inv sh'.inv hline
    rw [List.append_cons] at htimely
    obtain ⟨scenes, hscenes, hscenes'⟩ := ih sh₁ sh₁' ab₁ htimely
    rw [hcounted] at hscenes'
    refine ⟨(s.follow A l).2.scene (s.follow A l).1 :: scenes, ?_, ?_⟩
    · simp only [recite, hc₁, sh₁.scene_eq, hscenes, Fault.ok_bind, Fault.pure_eq]
    · simp only [recite, hc₁', sh₁'.scene_eq, hscene, hscenes', Fault.ok_bind, Fault.pure_eq,
        List.map_cons]

/-- **A clearing makes a cache new.** Whatever happened to a cache, after it was cleared it shows in
every timely script what a new cache shows that has its capacity, number of chains, node limit,
policy, hash function and clock, but for the events that it had counted. -/
theorem recite_clear (ha : Agrees hash) (hc : c.Reachable hash) {script : List (Line κ ν)}
    (htimely : Line.Timely script) : ∃ scenes, c.renewed.recite [] script = .ok scenes ∧
      c.clear.recite [] script = .ok (scenes.map (·.plus c.tally)) := by
  obtain ⟨s, sh⟩ := hc.exists_shows ha
  obtain ⟨m, hcounted, tw⟩ := Shelf.exists_twins_of_blank sh.alike_clear ⟨rfl, rfl⟩ s.blank_clear
    sh.tally_clear
  have ab : Shelf.Abreast m [] [] [] _ s.clear :=
    ⟨rfl, rfl, tw, fun j hj => absurd hj (Nat.not_lt_zero j)⟩
  rw [← hcounted]
  exact exists_recite sh.shows_renewed sh.shows_clear ab htimely

/-- Positions in use across another clearing, after a cache was filled, cleared and limited. -/
theorem recite_clear_of_caseless :
    let ops : List (Op Caseless Int64) :=
      [.command (.push none ⟨⟨"a"⟩, 0⟩), .command (.push none ⟨⟨"b"⟩, 1⟩),
        .command (.push none ⟨⟨"c"⟩, 2⟩), .command (.erase ⟨"B"⟩), .command (.limitNodes 2)]
    let script : List (Line Caseless Int64) :=
      [.plain (.command (.push none ⟨⟨"d"⟩, 3⟩)) rfl, .plain (.query (.position ⟨"D"⟩)) rfl,
        .plain (.command (.ensure ⟨"e"⟩)) rfl, .use .next 1, .plain (.command .clear) rfl,
        .plain (.command (.push none ⟨⟨"f"⟩, 4⟩)) rfl, .use .entry 1, .use .erase 3,
        .plain (.query .summary) rfl]
    ∃ answers c, (empty 2 3 .bySize HashScheme.byteSum.hash .initial).run ops =
        .ok (answers, c) ∧ Line.Timely script ∧ ∃ scenes,
      c.renewed.recite [] script = .ok scenes ∧
      c.clear.recite [] script = .ok (scenes.map (·.plus c.tally)) := by
  intro ops script
  have ha := agrees_caseless .byteSum
  obtain ⟨c, hc, -⟩ := (shows_empty (ν := Int64) ha 2 3 .bySize .initial).follows_run ops
  have htimely : Line.Timely script := Line.timely_of_length_le (by decide)
  exact ⟨_, c, hc, htimely, recite_clear ha ((Reachable.empty ..).run hc) htimely⟩

/-! ## Generations come round -/

omit [EquivBEq κ] [Inhabited ν] in
/-- Where there is one entry only, there is one position only that leads somewhere. -/
theorem Shows.entryAt?_of_lone (sh : c.Shows s) {e : Entry κ ν} {i : SlotId} {g : UInt32}
    (l : s.Lone e i g) (pos : Position) :
    c.entryAt? pos = .ok (if ⟨i, g⟩ = pos then some e else none) := by
  obtain ⟨stamp, hheld⟩ := l.held
  have hpos : s.positionOf ⟨⟨e, stamp⟩, i⟩ = ⟨i, g⟩ := congrArg (Position.mk i) l.generation
  rw [sh.entryAt?_eq, Shelf.at?, hheld, List.find?_singleton, hpos]
  by_cases h : (⟨i, g⟩ : Position) = pos <;> simp [h]

/-- A cache with room for two entries. -/
def pair : Cache Int64 Unit := empty 2 1 .bySize (HashScheme.constant 0).hash

/-- **Old positions tell a cleared cache from a new one.** Both are asked the same. The position of
key `0` leads to nothing in the new cache, but to another entry in the cleared one, where the slot
that it lay in is used after the second clearing and turns over `2 ^ 32` times. -/
theorem cleared_cache_differs :
    let start : List (Op Int64 Unit) := [.command (.push none ⟨0, ()⟩), .query (.position 0)]
    let rest : List (Op Int64 Unit) :=
      [.command (.push none ⟨1, ()⟩), .command .clear, .command (.setCapacity 1),
        .command (.push none ⟨99, ()⟩)] ++
      Op.pushes (fun j => ⟨Int64.ofNat (99 + j), ()⟩) (UInt32.size - 1)
    ∃ answers c, pair.run [.command (.push none ⟨10, ()⟩), .command (.push none ⟨11, ()⟩)] =
        .ok (answers, c) ∧
      (∃ pos fresh answers last,
        c.renewed.run start = .ok ([.flag true, .position (some pos)], fresh) ∧
        fresh.run rest = .ok (answers, last) ∧ last.entryAt? pos = .ok none) ∧
      ∃ pos cleared answers last,
        c.clear.run start = .ok ([.flag true, .position (some pos)], cleared) ∧
        cleared.run rest = .ok (answers, last) ∧
        last.entryAt? pos = .ok (some ⟨Int64.ofNat (99 + (UInt32.size - 1)), ()⟩) := by
  intro start rest
  have hkeys : ∀ j, (Int64.ofNat (99 + j) == Int64.ofNat (99 + (j + 1))) = false :=
    fun j => ofNat_succ_ne (99 + j)
  have ha := agrees_of_lawful (κ := Int64) (HashScheme.constant 0).hash
  have sh := shows_empty (ν := Unit) ha 2 1 .bySize .initial
  obtain ⟨c, hc, shc⟩ := sh.follows_run
    [.command (.push none ⟨10, ()⟩), .command (.push none ⟨11, ()⟩)]
  refine ⟨_, c, hc, ?_, ?_⟩
  · obtain ⟨c₁, hc₁, sh₁⟩ := shc.shows_renewed.follows_run start
    obtain ⟨last, hlast, sh'⟩ := sh₁.follows_run rest
    refine ⟨⟨0, 0⟩, c₁, _, last, hc₁, hlast, ?_⟩
    rw [Shelf.run_append] at sh'
    rw [sh'.entryAt?_of_lone (Shelf.Lone.pushes (i := 1) (g := 1) hkeys ⟨rfl, rfl, ⟨_, rfl⟩, rfl⟩
      (UInt32.size - 1))]
    rfl
  · obtain ⟨c₁, hc₁, sh₁⟩ := shc.shows_clear.follows_run start
    obtain ⟨last, hlast, sh'⟩ := sh₁.follows_run rest
    refine ⟨⟨1, 1⟩, c₁, _, last, hc₁, hlast, ?_⟩
    rw [Shelf.run_append] at sh'
    rw [sh'.entryAt?_of_lone (Shelf.Lone.pushes (i := 1) (g := 2) hkeys ⟨rfl, rfl, ⟨_, rfl⟩, rfl⟩
      (UInt32.size - 1))]
    rfl

end RecencyCache.Cache
