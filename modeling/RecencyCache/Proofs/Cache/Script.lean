import RecencyCache.Proofs.Cache.Lifetime
import RecencyCache.Proofs.Roster.Refinement
import RecencyCache.Proofs.Shelf.Relabel

/-!
# Scripts

A script is a list of operations in which a position is named by the line that answered it, so that
the same script can be given to caches that use other slots. `Cache.recite` shows a cache after each
line of a script.

`Abreast` relates two shelves between two lines of a script: they are twins, and the two positions
that answer a line lead to the same record, or else there was a clearing since, and both are
outdated. The number of times that a slot turned over is at most the number of lines since then, so
generations do not come round as long as the lines are fewer than `2 ^ 32`. Every line leaves two
shelves abreast, and shows the same of both: `Abreast.follow`.
-/
namespace RecencyCache

/-! ## Lines -/

/-- What is done with a position. -/
inductive Use where
  | entry
  | next
  | erase
  deriving DecidableEq, Repr

def Use.op {κ ν : Type} : Use → Position → Op κ ν
  | .entry, pos => .query (.entryAt pos)
  | .next, pos => .query (.positionAfter pos)
  | .erase, pos => .command (.eraseAt pos)

/-- The answer if the position is outdated. -/
def Use.miss {κ ν : Type} : Use → Answer κ ν
  | .entry => .found none
  | .next | .erase => .position none

/-- The position in an answer. -/
def Answer.position? {κ ν : Type} : Answer κ ν → Option Position
  | .position pos => pos
  | _ => none

/-- The position that answered line `j`. -/
def Answer.positionIn? {κ ν : Type} (answers : List (Answer κ ν)) (j : Nat) : Option Position :=
  answers[j]?.bind position?

theorem Answer.positionIn?_concat_of_lt {κ ν : Type} {answers : List (Answer κ ν)} {j : Nat}
    (hj : j < answers.length) (a : Answer κ ν) :
    positionIn? (answers ++ [a]) j = positionIn? answers j := by
  rw [positionIn?, List.getElem?_append_left hj, positionIn?]

theorem Answer.positionIn?_concat_length {κ ν : Type} (answers : List (Answer κ ν))
    (a : Answer κ ν) : positionIn? (answers ++ [a]) answers.length = a.position? := by
  rw [positionIn?, List.getElem?_concat_length, Option.bind_some]

/-- A line of a script. Lines count from zero. -/
inductive Line (κ ν : Type) where
  /-- An operation that is given no position. -/
  | plain (op : Op κ ν) (h : op.position? = none)
  /-- An operation on the position that answered an earlier line. -/
  | use (u : Use) (line : Nat)

namespace Line

variable {κ ν : Type}

/-- The operation, given what answered the lines before. There is none if no position answered the
line that is meant. -/
def op? (answers : List (Answer κ ν)) : Line κ ν → Option (Op κ ν)
  | plain op _ => some op
  | use u j => (Answer.positionIn? answers j).map u.op

def isClear : Line κ ν → Bool
  | plain (.command .clear) _ => true
  | _ => false

/-- Whether there is a clearing after line `j`. -/
def ClearedAfter (lines : List (Line κ ν)) (j : Nat) : Prop :=
  ∃ i, j < i ∧ ∃ l ∈ lines[i]?, l.isClear = true

/-- A position is used at most `2 ^ 32` lines after the line that it answered, or no line between
the two is a clearing. -/
def Timely (script : List (Line κ ν)) : Prop :=
  ∀ k u j, script[k]? = some (.use u j) →
    k ≤ j + UInt32.size ∨ ¬ ClearedAfter (script.take k) j

theorem timely_of_length_le {script : List (Line κ ν)} (h : script.length ≤ UInt32.size) :
    Timely script := by
  intro k u j hk
  have hlt : k < script.length := (List.getElem?_eq_some_iff.1 hk).1
  exact .inl (by omega)

theorem ClearedAfter.append {lines : List (Line κ ν)} {j : Nat} (h : ClearedAfter lines j)
    (rest : List (Line κ ν)) : ClearedAfter (lines ++ rest) j := by
  obtain ⟨i, hi, l, hl, hclear⟩ := h
  refine ⟨i, hi, l, ?_, hclear⟩
  rwa [List.getElem?_append_left (List.getElem?_eq_some_iff.1 hl).1]

theorem clearedAfter_concat {lines : List (Line κ ν)} {l : Line κ ν} {j : Nat}
    (hl : l.isClear = true) (hj : j < lines.length) : ClearedAfter (lines ++ [l]) j :=
  ⟨lines.length, hj, l, List.getElem?_concat_length, hl⟩

end Line

/-! ## Scenes -/

/-- What a cache shows after a line of a script. -/
structure Scene (κ ν : Type) where
  /-- The answer, with the entry in place of a position. -/
  answer : Answer κ ν
  entries : List (Entry κ ν)
  entriesRev : List (Entry κ ν)
  /-- The lengths of all chains. -/
  lengths : List Nat
  summary : Tally

/-- An answer with other event counts, if it is about them. -/
def Answer.plus {κ ν : Type} (b : Tally) : Answer κ ν → Answer κ ν
  | .tally t => .tally (t.plus b)
  | a => a

/-- A scene with other event counts. -/
def Scene.plus {κ ν : Type} (b : Tally) (x : Scene κ ν) : Scene κ ν :=
  { x with answer := x.answer.plus b, summary := x.summary.plus b }

namespace Cache

variable {κ ν : Type} [BEq κ]

/-- What the cache shows after the answer. -/
def scene (c : Cache κ ν) (answer : Answer κ ν) : Except Fault (Scene κ ν) := do
  pure ⟨← c.shown answer, ← c.toList, ← c.toListRev, ← c.chains.lengths c.nodes, c.summary⟩

/-- Follows a line, given what answered the lines before. -/
def follow [Inhabited ν] (c : Cache κ ν) (answers : List (Answer κ ν)) (l : Line κ ν) :
    Except Fault (Answer κ ν × Cache κ ν) :=
  match l.op? answers with
  | some op => c.perform op
  | none => pure (.done, c)

/-- What the cache shows after each line of a script. -/
def recite [Inhabited ν] (c : Cache κ ν) (answers : List (Answer κ ν)) :
    List (Line κ ν) → Except Fault (List (Scene κ ν))
  | [] => pure []
  | l :: script => do
    let (answer, c) ← c.follow answers l
    let scene ← c.scene answer
    let scenes ← c.recite (answers ++ [answer]) script
    pure (scene :: scenes)

end Cache

namespace Shelf

variable {κ ν : Type}

def scene (s : Shelf κ ν) (answer : Answer κ ν) : Scene κ ν :=
  ⟨s.shown answer, s.entries, s.entries.reverse, (List.range s.chainCount).map s.chainLength,
    s.summary⟩

def follow [BEq κ] [Inhabited ν] (s : Shelf κ ν) (answers : List (Answer κ ν)) (l : Line κ ν) :
    Answer κ ν × Shelf κ ν :=
  match l.op? answers with
  | some op => s.perform op
  | none => (.done, s)

end Shelf

namespace Cache.Shows

variable {κ ν : Type} [BEq κ] {c : Cache κ ν} {s : Shelf κ ν}

theorem scene_eq (sh : c.Shows s) (answer : Answer κ ν) :
    c.scene answer = .ok (s.scene answer) := by
  simp only [scene, sh.shown_eq, sh.toList_eq, sh.toListRev_eq, sh.lengths_eq, sh.summary_eq,
    Fault.ok_bind, Fault.pure_eq, Shelf.scene]

theorem follows_follow [EquivBEq κ] [Inhabited ν] (sh : c.Shows s) (answers : List (Answer κ ν))
    (l : Line κ ν) : Follows (c.follow answers l) (s.follow answers l) := by
  rw [follow, Shelf.follow]
  cases l.op? answers with
  | none => exact sh.follows_pure _
  | some op => exact sh.follows_perform op

end Cache.Shows

theorem Relabel.op_use {κ ν : Type} (m : Relabel) (u : Use) (pos : Position) :
    (u.op (m.position pos) : Op κ ν) = m.op (u.op pos) := by
  cases u <;> rfl

theorem Relabel.position?_answer {κ ν : Type} (m : Relabel) (a : Answer κ ν) :
    (m.answer a).position? = a.position?.map m.position := by
  cases a <;> rfl

/-! ## Positions that were answered earlier -/

namespace Shelf

variable {κ ν : Type} {m m' : Relabel} {s s' t t' : Shelf κ ν} {h : Held κ ν} {pos pos' : Position}
  {a n : Nat} {c c' : Prop} {p p' : Option Position}

/-- Since it was the position of a record, its slot has turned over `a` times at least and `n` times
at most. If it has not, it is occupied. -/
def Turned (s : Shelf κ ν) (pos : Position) (a n : Nat) : Prop :=
  ∃ x, a ≤ x ∧ x ≤ n ∧ s.generation pos.slot = pos.generation + UInt32.ofNat x ∧
    (x = 0 → pos.slot ∈ s.slots)

theorem turned_positionOf (hh : h ∈ s.held) : s.Turned (s.positionOf h) 0 0 :=
  ⟨0, Nat.le_refl 0, Nat.le_refl 0, (UInt32.add_zero _).symm, fun _ => mem_slots.2 ⟨h, hh, rfl⟩⟩

/-- A slot that is not occupied has turned over. -/
theorem Turned.of_vacant (ht : s.Turned pos a n) (hi : pos.slot ∉ s.slots) :
    s.Turned pos 1 n := by
  obtain ⟨x, -, hn, hgen, hoccupied⟩ := ht
  exact ⟨x, Nat.one_le_iff_ne_zero.2 fun hx => hi (hoccupied hx), hn, hgen, hoccupied⟩

theorem Turned.map (tw : Twins m s t) (ht : s.Turned pos a n) :
    t.Turned (m.position pos) a n := by
  obtain ⟨x, ha, hn, hgen, hoccupied⟩ := ht
  refine ⟨x, ha, hn, ?_, fun hx => ?_⟩
  · show t.generation (m.slot pos.slot) = _
    rw [tw.generation, hgen, UInt32.add_assoc, UInt32.add_comm (UInt32.ofNat x),
      ← UInt32.add_assoc]
    rfl
  · obtain ⟨h, hh, hslot⟩ := mem_slots.1 (hoccupied hx)
    rw [mem_slots, tw.held]
    exact ⟨m.held h, List.mem_map_of_mem hh, congrArg m.slot hslot⟩

/-- The answers of twins lead to the same entries. -/
theorem Twins.scene_eq (tw : Twins m s t) (a : Answer κ ν) :
    t.scene (m.answer a) = (s.scene a).plus m.counted := by
  have hshown : t.shown (m.answer a) = (s.shown a).plus m.counted := by
    cases a with
    | position pos =>
      cases pos with
      | none => rfl
      | some pos =>
        show Answer.found ((t.at? (m.position pos)).map Held.entry) = _
        rw [tw.at?, Option.map_map]
        rfl
    | _ => rfl
  rw [Shelf.scene, hshown, tw.entries, tw.chainCount, funext tw.chainLength, tw.summary]
  rfl

variable [BEq κ]

/-- A step turns a slot over at most once. -/
theorem Turned.step (inv : s.Inv) (turns : s.Turns s') (ht : s.Turned pos a n) :
    s'.Turned pos a (n + 1) := by
  obtain ⟨x, ha, hn, hgen, hoccupied⟩ := ht
  cases hl : s.left s' pos.slot with
  | true =>
    refine ⟨x + 1, by omega, by omega, ?_, fun hx => nomatch hx⟩
    rw [turns.generation, hl, if_pos rfl, hgen, UInt32.ofNat_add, UInt32.add_assoc]
    rfl
  | false =>
    refine ⟨x, ha, by omega, ?_, fun hx => ?_⟩
    · rw [turns.generation, hl, if_neg Bool.false_ne_true, hgen]
    · obtain ⟨h, hh, hslot⟩ := mem_slots.1 (hoccupied hx)
      rw [← hslot] at hl
      obtain ⟨y, hy, hyslot, -⟩ := exists_of_left_eq_false inv hh hl
      exact mem_slots.2 ⟨y, hy, hyslot.trans hslot⟩

theorem Turned.at?_eq_none (inv : s.Inv) (ht : s.Turned pos 1 n) (hn : n < UInt32.size) :
    s.at? pos = none := by
  obtain ⟨x, hx, hxn, hgen, -⟩ := ht
  rw [Option.eq_none_iff_forall_ne_some]
  intro h hat
  obtain ⟨-, hpos⟩ := inv.exists_at?_iff.1 ⟨h, hat⟩
  rw [hgen, UInt32.add_eq_left, Cache.ofNat_eq_zero_iff] at hpos
  exact absurd (Nat.le_of_dvd hx hpos) (by omega)

/-- What has become of the two positions that answered one line, where `c` says that there was a
clearing since. -/
inductive Mates (m : Relabel) (s t : Shelf κ ν) (n : Nat) (c : Prop) :
    Option Position → Option Position → Prop
  | none : Mates m s t n c none none
  | live {pos : Position} (h : s.Turned pos 0 n) :
    Mates m s t n c (some pos) (some (m.position pos))
  | gone {pos pos' : Position} (hc : c) (h : s.Turned pos 1 n) (h' : t.Turned pos' 1 n) :
    Mates m s t n c (some pos) (some pos')

theorem Mates.step (inv : s.Inv) (inv' : t.Inv) (turns : s.Turns s') (turns' : t.Turns t')
    (hc : c → c') (hm : Mates m s t n c p p') : Mates m s' t' (n + 1) c' p p' := by
  cases hm with
  | none => exact .none
  | live h => exact .live (h.step inv turns)
  | gone hcleared h h' => exact .gone (hc hcleared) (h.step inv turns) (h'.step inv' turns')

theorem perform_of_stale [Inhabited ν] (hat : s.at? pos = none) (u : Use) :
    s.perform (u.op pos) = (u.miss, s) := by
  cases u with
  | entry => simp only [Use.op, perform, ask, hat, Use.miss, Option.map_none]
  | next => simp only [Use.op, perform, ask, hat, Use.miss, Option.bind_none, Option.map_none]
  | erase => simp only [Use.op, perform, apply, eraseAt, hat, Use.miss, Prod.map, id]

theorem turned_of_answer [Inhabited ν] (inv : s.Inv) (op : Op κ ν) :
    ∀ pos ∈ (s.perform op).1.position?, (s.perform op).2.Turned pos 0 0 := by
  intro pos hpos
  have hanswer : (s.perform op).1 = .position (some pos) := by
    cases ha : (s.perform op).1 <;> rw [ha] at hpos <;> cases hpos
    rfl
  obtain ⟨h, hh, rfl⟩ := exists_of_position inv hanswer
  exact turned_positionOf hh

variable [EquivBEq κ]

/-- A clearing turns all slots over. -/
theorem Turned.clear (inv : s.Inv) (ht : s.Turned pos a n) : s.clear.Turned pos 1 (n + 1) :=
  (ht.step inv (turns_clear inv)).of_vacant List.not_mem_nil

theorem Mates.clear (inv : s.Inv) (inv' : t.Inv) (tw : Twins m s t) (hc : c')
    (hm : Mates m s t n c p p') : Mates m' s.clear t.clear (n + 1) c' p p' := by
  cases hm with
  | none => exact .none
  | live h => exact .gone hc (h.clear inv) ((h.map tw).clear inv')
  | gone _ h h' => exact .gone hc (h.clear inv) (h'.clear inv')

end Shelf

/-! ## Two shelves abreast -/

/-- The shelves `s` and `t` after the lines `lines`, which had the answers `A` and `A'`. -/
structure Shelf.Abreast {κ ν : Type} (m : Relabel) (lines : List (Line κ ν))
    (A A' : List (Answer κ ν)) (s t : Shelf κ ν) : Prop where
  length : A.length = lines.length
  length' : A'.length = lines.length
  twins : Twins m s t
  mates : ∀ j < lines.length, Mates m s t (lines.length - 1 - j) (Line.ClearedAfter lines j)
    (Answer.positionIn? A j) (Answer.positionIn? A' j)

/-- The line `l` was followed after `lines`, with the results `r` and `r'`. -/
structure Shelf.Followed {κ ν : Type} (m : Relabel) (lines : List (Line κ ν)) (l : Line κ ν)
    (A A' : List (Answer κ ν)) (r r' : Answer κ ν × Shelf κ ν) : Prop where
  abreast : ∃ m' : Relabel, m'.counted = m.counted ∧
    Abreast m' (lines ++ [l]) (A ++ [r.1]) (A' ++ [r'.1]) r.2 r'.2
  scene : r'.2.scene r'.1 = (r.2.scene r.1).plus m.counted

namespace Shelf.Abreast

variable {κ ν : Type} {m m' : Relabel} {s t : Shelf κ ν} {lines : List (Line κ ν)} {l : Line κ ν}
  {A A' : List (Answer κ ν)}

/-- No position answered a line that is still to come. -/
theorem exists_mates (ab : Abreast m lines A A' s t) (j : Nat) :
    Mates m s t (lines.length - 1 - j) (Line.ClearedAfter lines j) (Answer.positionIn? A j)
      (Answer.positionIn? A' j) := by
  by_cases hj : j < lines.length
  · exact ab.mates j hj
  · have hlen := Nat.le_of_not_lt hj
    rw [Answer.positionIn?, List.getElem?_eq_none (ab.length ▸ hlen), Answer.positionIn?,
      List.getElem?_eq_none (ab.length' ▸ hlen)]
    exact .none

/-- If both answers and what is left agree, the shelves stay abreast. -/
theorem concat (ab : Abreast m lines A A' s t) (hcounted : m'.counted = m.counted)
    {r r' : Answer κ ν × Shelf κ ν} (agree : Agree m' m'.answer r r')
    (hearlier : ∀ j < lines.length, Mates m' r.2 r'.2 (lines.length - 1 - j + 1)
      (Line.ClearedAfter (lines ++ [l]) j) (Answer.positionIn? A j) (Answer.positionIn? A' j))
    (hnew : ∀ pos ∈ r.1.position?, r.2.Turned pos 0 0) : Followed m lines l A A' r r' := by
  refine ⟨⟨m', hcounted, ?_, ?_, agree.twins, fun j hj => ?_⟩, ?_⟩
  · rw [List.length_append, ab.length, List.length_append]
    rfl
  · rw [List.length_append, ab.length', List.length_append]
    rfl
  · rw [List.length_append, List.length_singleton] at hj ⊢
    rcases Nat.lt_succ_iff_lt_or_eq.1 hj with hlt | rfl
    · rw [Answer.positionIn?_concat_of_lt (ab.length ▸ hlt),
        Answer.positionIn?_concat_of_lt (ab.length' ▸ hlt),
        show lines.length + 1 - 1 - j = lines.length - 1 - j + 1 by omega]
      exact hearlier j hlt
    · -- the positions in the two answers to this line
      have hA := Answer.positionIn?_concat_length A r.1
      have hA' := Answer.positionIn?_concat_length A' r'.1
      rw [ab.length] at hA
      rw [ab.length', agree.answer, Relabel.position?_answer] at hA'
      rw [hA, agree.answer, hA', Nat.add_sub_cancel, Nat.sub_self]
      cases hpos : r.1.position? with
      | none => exact .none
      | some pos => exact .live (hnew pos hpos)
  · rw [agree.answer, agree.twins.scene_eq, hcounted]

variable [BEq κ] [EquivBEq κ]

/-- Both shelves stay as they are and have the same answer. -/
theorem idle (ab : Abreast m lines A A' s t) (inv : s.Inv) (inv' : t.Inv) {a : Answer κ ν}
    (ha : m.answer a = a) (hpos : a.position? = none) :
    Followed m lines l A A' (a, s) (a, t) := by
  refine ab.concat rfl ⟨ha.symm, ab.twins⟩ (fun j hj => ?_) fun pos hmem => ?_
  · exact (ab.mates j hj).step inv inv' (turns_refl inv) (turns_refl inv') (·.append [l])
  · rw [hpos] at hmem
    cases hmem

/-- Both shelves are cleared. From then on they are twins in another way. -/
theorem clear (ab : Abreast m lines A A' s t) (inv : s.Inv) (inv' : t.Inv)
    (hl : l.isClear = true) : Followed m lines l A A' (.done, s.clear) (.done, t.clear) := by
  have al : Alike s.clear t.clear := { ab.twins.toAlike with }
  obtain ⟨m', hcounted, tw⟩ :=
    exists_twins_of_blank al s.blank_clear t.blank_clear ab.twins.tally
  refine ab.concat hcounted ⟨rfl, tw⟩ (fun j hj => ?_) fun pos hmem => nomatch hmem
  exact (ab.mates j hj).clear inv inv' ab.twins (Line.clearedAfter_concat hl hj)

variable [Inhabited ν]

/-- Both shelves perform an operation, each with its own positions. -/
theorem perform (ab : Abreast m lines A A' s t) (inv : s.Inv) (inv' : t.Inv) {op : Op κ ν}
    (hop : op ≠ .command .clear) :
    Followed m lines l A A' (s.perform op) (t.perform (m.op op)) := by
  refine ab.concat rfl (ab.twins.perform hop) (fun j hj => ?_) (turned_of_answer inv op)
  exact (ab.mates j hj).step inv inv' (turns_perform inv op) (turns_perform inv' (m.op op))
    (·.append [l])

/-- **One line.** Two shelves stay abreast, and show the same but for the event counts. -/
theorem follow (ab : Abreast m lines A A' s t) (inv : s.Inv) (inv' : t.Inv)
    (htimely : ∀ u j, l = .use u j →
      lines.length ≤ j + UInt32.size ∨ ¬ Line.ClearedAfter lines j) :
    Followed m lines l A A' (s.follow A l) (t.follow A' l) := by
  cases l with
  | plain op h =>
    by_cases hop : op = .command .clear
    · subst hop
      exact ab.clear inv inv' rfl
    · have hperform := ab.perform (l := .plain op h) inv inv' hop
      rw [m.op_of_position?_eq_none h] at hperform
      exact hperform
  | use u j =>
    have hm := ab.exists_mates j
    rw [Shelf.follow, Line.op?, Shelf.follow, Line.op?]
    generalize Answer.positionIn? A j = p at hm
    generalize Answer.positionIn? A' j = p' at hm
    cases hm with
    | none => exact ab.idle inv inv' rfl rfl
    | @live pos _ =>
      have hop : (u.op pos : Op κ ν) ≠ .command .clear := by cases u <;> exact fun h => nomatch h
      have hperform := ab.perform (l := .use u j) inv inv' hop
      rw [← Relabel.op_use] at hperform
      exact hperform
    | @gone pos pos' hcleared hturned hturned' =>
      -- neither generation has come round yet
      have hpositive : 0 < UInt32.size := by decide
      have hfew := (htimely u j rfl).resolve_right (not_not_intro hcleared)
      have hlt : lines.length - 1 - j < UInt32.size := by omega
      simp only [Option.map_some, perform_of_stale (hturned.at?_eq_none inv hlt),
        perform_of_stale (hturned'.at?_eq_none inv' hlt)]
      exact ab.idle inv inv' (by cases u <;> rfl) (by cases u <;> rfl)

end Shelf.Abreast
end RecencyCache
