import Mathlib.Data.List.Nodup
import RecencyCache.Proofs.Pool
import RecencyCache.Strand

/-!
# A strand as a list of slots

`Strand.Threads s nodes l` says that strand `s` runs through the slots of `l` in this order: each
node on it has the link that the list gives its slot (`Link.within`). What nodes outside `l` have
for links does not matter.

* `exists_attach`: a node put in front of a list `l` in slot `i` makes it `i :: l`.
* `exists_detach`: a node taken out of `a ++ i :: b`, wherever it stands, leaves `a ++ b`.
* `walks_next`, `walks_prev`: following the links forward or backward visits the list and ends, so
  the functions that follow them count far enough (`follow_eq`, `followBack_eq`, `walk_eq`).
* `threads_of_walks`: a strand on which both of these visit a list runs through it.

Both surgeries go through (no link leads to a vacant slot), touch nothing but links on `s`, and
nothing at all of the nodes outside the list (`Relinked`).
-/
namespace RecencyCache

/-! ## The links that a list gives its slots -/

/-- The link of slot `i` in a list of slots, where `prev` comes before the first of them. -/
def Link.within : Option SlotId → List SlotId → SlotId → Link
  | _, [], _ => {}
  | prev, j :: rest, i => if j = i then ⟨prev, rest.head?⟩ else within (some j) rest i

namespace Link

theorem within_cons_self (p : Option SlotId) (i : SlotId) (l : List SlotId) :
    within p (i :: l) i = ⟨p, l.head?⟩ := by
  simp [within]

theorem within_cons_of_ne (p : Option SlotId) {i j : SlotId} (h : j ≠ i) (l : List SlotId) :
    within p (j :: l) i = within (some j) l i := by
  simp [within, h]

/-- What comes before a list is seen by its first slot only. -/
theorem within_before (p p' : Option SlotId) (l : List SlotId) (i : SlotId) :
    within p l i =
      if l.head? = some i then { within p' l i with prev := p } else within p' l i := by
  cases l with
  | nil => rfl
  | cons j l =>
    by_cases h : j = i
    · simp [within, h]
    · simp [within, h]

theorem within_append_cons {a b : List SlotId} {i : SlotId} (p : Option SlotId) (h : i ∉ a) :
    within p (a ++ i :: b) i = ⟨a.getLast?.or p, b.head?⟩ := by
  induction a generalizing p with
  | nil => exact within_cons_self p i b
  | cons j a ih =>
    simp only [List.mem_cons, not_or] at h
    rw [List.cons_append, within_cons_of_ne p (Ne.symm h.1), ih (some j) h.2]
    cases a <;> simp [List.getLast?_cons]

/-- Without slot `i` its neighbours meet, and no other link is another. -/
theorem within_append {a b : List SlotId} {i j : SlotId} (p : Option SlotId)
    (hn : (a ++ i :: b).Nodup) (hj : j ≠ i) :
    within p (a ++ b) j =
      ⟨if b.head? = some j then a.getLast?.or p else (within p (a ++ i :: b) j).prev,
        if a.getLast? = some j then b.head? else (within p (a ++ i :: b) j).next⟩ := by
  induction a generalizing p with
  | nil =>
    rw [List.nil_append, List.nil_append, within_cons_of_ne p (Ne.symm hj),
      within_before p (some i) b j]
    split <;> simp_all
  | cons k a ih =>
    have hn' := List.nodup_cons.1 hn
    by_cases hk : k = j
    · subst hk
      have hb : b.head? ≠ some k := fun e => hn'.1 (by simp [List.mem_of_head? e])
      simp only [List.cons_append, within_cons_self, hb, if_false]
      cases a with
      | nil => simp
      | cons m a =>
        have hl : (m :: a).getLast? ≠ some k :=
          fun e => hn'.1 (List.mem_append_left _ (List.mem_of_getLast? e))
        simp [List.getLast?_cons_cons, hl]
    · rw [List.cons_append, List.cons_append, within_cons_of_ne p hk, within_cons_of_ne p hk,
        ih (some k) hn'.2]
      cases a with
      | nil => simp [hk]
      | cons m a => simp [List.getLast?_cons]

end Link

/-- Following `next` from `start` visits `l`, and there it ends. -/
inductive Walks {α : Type} (next : α → Except Fault (Option α)) : Option α → List α → Prop
  | stop : Walks next none []
  | step {a : α} {o : Option α} {l : List α} (h : next a = .ok o) (rest : Walks next o l) :
    Walks next (some a) (a :: l)

namespace Walks

variable {α : Type} {next : α → Except Fault (Option α)} {start : Option α} {l a b : List α}
  {x : α}

theorem start_eq (h : Walks next start l) : start = l.head? := by
  cases h <;> rfl

/-- A step of a walk leads to what comes next in its list. -/
theorem next_eq (h : Walks next start (a ++ x :: b)) : next x = .ok b.head? := by
  induction a generalizing start with
  | nil =>
    cases h with
    | step hx rest => rw [hx, rest.start_eq]
  | cons y a ih =>
    cases h with
    | step _ rest => exact ih rest

end Walks

/-- The node without its link on strand `s`. -/
def Node.bare {κ ν : Type} (s : Strand) (n : Node κ ν) : Node κ ν := n.mapLink s fun _ => {}

namespace Node

variable {κ ν : Type} (s : Strand) (n : Node κ ν)

theorem bare_mapLink (f : Link → Link) : (n.mapLink s f).bare s = n.bare s := by
  cases s <;> rfl

theorem link_bare_of_ne {s t : Strand} (h : t ≠ s) : (n.bare s).link t = n.link t :=
  link_mapLink_of_ne n s _ h

end Node

namespace Strand

variable {κ ν : Type}

/-- The link of the node in slot `i`, if there is a node. -/
def link? (s : Strand) (nodes : Nodes κ ν) (i : SlotId) : Option Link :=
  (nodes.get? i).map (·.link s)

/-- The strand runs through the slots of `l`, in this order. -/
def Threads (s : Strand) (nodes : Nodes κ ν) (l : List SlotId) : Prop :=
  ∀ i ∈ l, s.link? nodes i = some (Link.within none l i)

/-- `q` is `p` but for links on strand `s` of nodes in the slots of `l`. -/
structure Relinked (s : Strand) (p q : Nodes κ ν) (l : List SlotId) : Prop where
  bare : q.map (Node.bare s) = p.map (Node.bare s)
  other : ∀ j ∉ l, q.get? j = p.get? j

variable {s : Strand} {p q r nodes : Nodes κ ν} {l l' a b : List SlotId} {i j : SlotId}

namespace Relinked

theorem trans (h : s.Relinked p q l) (h' : s.Relinked q r l') (hl : ∀ j ∈ l', j ∈ l) :
    s.Relinked p r l :=
  ⟨h'.bare.trans h.bare, fun j hj => (h'.other j fun hj' => hj (hl j hj')).trans (h.other j hj)⟩

theorem isSome_get? (h : s.Relinked p q l) (i : SlotId) :
    (q.get? i).isSome = (p.get? i).isSome := Pool.isSome_get?_eq h.bare i

end Relinked

theorem Threads.isSome_get? (h : s.Threads nodes l) (hi : i ∈ l) : (nodes.get? i).isSome := by
  have := h i hi
  rw [link?, Option.map_eq_some_iff] at this
  obtain ⟨n, hn, -⟩ := this
  simp [hn]

/-- A node's link leads to the slots beside its own in the list. -/
theorem link_of_threads (ht : s.Threads nodes (a ++ i :: b)) (hn : (a ++ i :: b).Nodup) :
    ∃ n, nodes.get? i = some n ∧ n.link s = ⟨a.getLast?, b.head?⟩ := by
  have hia : i ∉ a := fun h => (List.nodup_append.1 hn).2.2 i h i (by simp) rfl
  have hlink := ht i (by simp)
  rw [Link.within_append_cons none hia, Option.or_none, link?, Option.map_eq_some_iff] at hlink
  exact hlink

section Neighbours

variable {n : Node κ ν} (ht : s.Threads nodes l) (hn : l.Nodup)
include ht hn

/-- A forward link leads to the next slot of the list. -/
theorem next_eq_some_iff (hi : i ∈ l) (hget : nodes.get? i = some n) :
    (n.link s).next = some j ↔ [i, j] <:+: l := by
  constructor
  · intro hnext
    obtain ⟨a, b, rfl⟩ := List.append_of_mem hi
    obtain ⟨m, hm, hlink⟩ := link_of_threads ht hn
    obtain rfl : n = m := Option.some.inj (hget.symm.trans hm)
    rw [hlink] at hnext
    obtain ⟨b, rfl⟩ := List.head?_eq_some_iff.1 hnext
    exact ⟨a, b, by simp⟩
  · rintro ⟨a, b, rfl⟩
    rw [List.append_assoc, List.cons_append] at ht hn
    obtain ⟨m, hm, hlink⟩ := link_of_threads ht hn
    obtain rfl : n = m := Option.some.inj (hget.symm.trans hm)
    rw [hlink]
    rfl

/-- A backward link leads to the slot before in the list. -/
theorem prev_eq_some_iff (hj : j ∈ l) (hget : nodes.get? j = some n) :
    (n.link s).prev = some i ↔ [i, j] <:+: l := by
  constructor
  · intro hprev
    obtain ⟨a, b, rfl⟩ := List.append_of_mem hj
    obtain ⟨m, hm, hlink⟩ := link_of_threads ht hn
    obtain rfl : n = m := Option.some.inj (hget.symm.trans hm)
    rw [hlink] at hprev
    obtain ⟨a, rfl⟩ := List.getLast?_eq_some_iff.1 hprev
    exact ⟨a, b, by simp⟩
  · rintro ⟨a, b, rfl⟩
    have hsplit : a ++ [i, j] ++ b = (a ++ [i]) ++ j :: b := by simp
    rw [hsplit] at ht hn
    obtain ⟨m, hm, hlink⟩ := link_of_threads ht hn
    obtain rfl : n = m := Option.some.inj (hget.symm.trans hm)
    rw [hlink, List.getLast?_concat]

theorem mem_of_link (hi : i ∈ l) (hget : nodes.get? i = some n)
    (hj : (n.link s).prev = some j ∨ (n.link s).next = some j) : j ∈ l := by
  rcases hj with hprev | hnext
  · exact ((prev_eq_some_iff ht hn hi hget).1 hprev).subset (by simp)
  · exact ((next_eq_some_iff ht hn hi hget).1 hnext).subset (by simp)

end Neighbours

/-- Splicing one strand leaves every other strand as it is. -/
theorem link?_eq_of_bare {t : Strand} (hts : t ≠ s)
    (h : q.map (Node.bare s) = p.map (Node.bare s)) (i : SlotId) : t.link? q i = t.link? p i := by
  have hget := congrArg (Option.map (·.link t)) (Pool.map_get?_eq h i)
  simpa only [link?, Option.map_map, Function.comp_def, Node.link_bare_of_ne _ hts] using hget

/-! ## Changing one link -/

section Relink

variable {k : Option SlotId} {f : Link → Link}

theorem exists_relink? (s : Strand) (nodes : Nodes κ ν)
    (h : ∀ j, k = some j → (nodes.get? j).isSome) (f : Link → Link) :
    ∃ q, s.relink? nodes k f = .ok q := by
  cases k with
  | none => exact ⟨nodes, rfl⟩
  | some i => exact Pool.exists_modify (h i rfl) _

theorem link?_relink? (h : s.relink? nodes k f = .ok q) (j : SlotId) :
    s.link? q j = if k = some j then (s.link? nodes j).map f else s.link? nodes j := by
  cases k with
  | none => cases h; simp
  | some i =>
    simp only [link?, Pool.get?_modify h j, Option.some.injEq]
    split
    · simp [Function.comp_def]
    · rfl

theorem relinked_relink? (h : s.relink? nodes k f = .ok q) (hk : ∀ j, k = some j → j ∈ l) :
    s.Relinked nodes q l := by
  cases k with
  | none => cases h; exact ⟨rfl, fun _ _ => rfl⟩
  | some i =>
    refine ⟨Pool.map_modify h fun n => Node.bare_mapLink s n f, fun j hj => ?_⟩
    rw [Pool.get?_modify h j, if_neg]
    rintro rfl
    exact hj (hk i rfl)

end Relink

/-! ## Attaching and detaching -/

theorem exists_attach (ht : s.Threads nodes l) (hi : (nodes.get? i).isSome) (hil : i ∉ l) :
    ∃ q, s.attach nodes i l.head? = .ok q ∧ s.Threads q (i :: l) ∧
      s.Relinked nodes q (i :: l) := by
  obtain ⟨p, hp⟩ := exists_relink? s nodes (k := some i) (by simpa using hi)
    fun _ => ⟨none, l.head?⟩
  have rp : s.Relinked nodes p (i :: l) := relinked_relink? hp (by simp)
  obtain ⟨q, hq⟩ := exists_relink? s p (k := l.head?)
    (fun j hj => by rw [rp.isSome_get?]; exact ht.isSome_get? (List.mem_of_head? hj))
    fun k => { k with prev := some i }
  have rq : s.Relinked p q (i :: l) :=
    relinked_relink? hq fun j hj => List.mem_cons_of_mem _ (List.mem_of_head? hj)
  refine ⟨q, ?_, ?_, rp.trans rq fun _ hj => hj⟩
  · have hp' : s.relink nodes i (fun _ => ⟨none, l.head?⟩) = .ok p := hp
    simp [attach, hp', hq]
  · intro j hj
    rw [link?_relink? hq, link?_relink? hp]
    rcases List.mem_cons.1 hj with rfl | hj
    · have hne : l.head? ≠ some j := fun e => hil (List.mem_of_head? e)
      obtain ⟨n, hn⟩ := Option.isSome_iff_exists.1 hi
      simp [hne, link?, hn, Link.within_cons_self]
    · have hij : i ≠ j := fun e => hil (e ▸ hj)
      rw [Link.within_cons_of_ne none hij, Link.within_before (some i) none l j, ht j hj]
      simp only [Option.some.injEq, hij, if_false]
      split <;> rfl

theorem exists_detach (ht : s.Threads nodes (a ++ i :: b)) (hn : (a ++ i :: b).Nodup) :
    ∃ q, s.detach nodes i = .ok (⟨a.getLast?, b.head?⟩, q) ∧ s.Threads q (a ++ b) ∧
      s.Relinked nodes q (a ++ i :: b) := by
  obtain ⟨n, hget, hlink⟩ := link_of_threads ht hn
  have ha : ∀ j, a.getLast? = some j → j ∈ a ++ i :: b :=
    fun j hj => List.mem_append_left _ (List.mem_of_getLast? hj)
  have hb : ∀ j, b.head? = some j → j ∈ a ++ i :: b :=
    fun j hj => List.mem_append_right _ (List.mem_cons_of_mem _ (List.mem_of_head? hj))
  obtain ⟨p, hp⟩ := exists_relink? s nodes (fun j hj => ht.isSome_get? (ha j hj))
    fun k => { k with next := b.head? }
  have rp : s.Relinked nodes p (a ++ i :: b) := relinked_relink? hp ha
  obtain ⟨q, hq⟩ := exists_relink? s p
    (fun j hj => by rw [rp.isSome_get?]; exact ht.isSome_get? (hb j hj))
    fun k => { k with prev := a.getLast? }
  have rq : s.Relinked nodes q (a ++ i :: b) := rp.trans (relinked_relink? hq hb) fun _ hj => hj
  obtain ⟨r, hr⟩ := exists_relink? s q (k := some i)
    (by rintro j ⟨⟩; rw [rq.isSome_get?]; exact ht.isSome_get? (by simp)) fun _ => {}
  have ri : s.Relinked q r [i] := relinked_relink? hr (by simp)
  have rr : s.Relinked nodes r (a ++ i :: b) := rq.trans ri (by simp)
  refine ⟨r, ?_, ?_, rr⟩
  · have hr' : s.relink q i (fun _ => {}) = .ok r := hr
    simp [detach, Pool.get, hget, hlink, hp, hq, hr']
  · intro j hj
    have hji : j ≠ i := by
      rintro rfl
      exact (List.nodup_middle.1 hn).notMem hj
    have hj' : j ∈ a ++ i :: b := by
      rcases List.mem_append.1 hj with hj | hj
      · exact List.mem_append_left _ hj
      · exact List.mem_append_right _ (List.mem_cons_of_mem _ hj)
    rw [link?_relink? hr, if_neg (by simpa using hji.symm), link?_relink? hq, link?_relink? hp,
      ht j hj', Link.within_append none hn hji, Option.or_none]
    split <;> split <;> simp

/-- A detached node has no neighbours, and nothing but links on the strand has changed. -/
theorem link?_of_detach {link : Link} (h : s.detach nodes i = .ok (link, q)) :
    s.link? q i = some {} ∧ q.map (Node.bare s) = nodes.map (Node.bare s) := by
  obtain ⟨n, hn, h⟩ := Fault.exists_of_bind h
  obtain ⟨p₁, hp₁, h⟩ := Fault.exists_of_bind h
  obtain ⟨p₂, hp₂, h⟩ := Fault.exists_of_bind h
  obtain ⟨p₃, hp₃, h⟩ := Fault.exists_of_bind h
  cases h
  have hp₃ : s.relink? p₂ (some i) (fun _ => {}) = .ok q := hp₃
  have hbare : q.map (Node.bare s) = nodes.map (Node.bare s) := by
    have r₁ := relinked_relink? hp₁ (l := (n.link s).prev.toList) (by simp)
    have r₂ := relinked_relink? hp₂ (l := (n.link s).next.toList) (by simp)
    have r₃ := relinked_relink? hp₃ (l := [i]) (by simp)
    exact r₃.bare.trans (r₂.bare.trans r₁.bare)
  have hsome : (s.link? q i).isSome := by
    rw [link?, Option.isSome_map, Pool.isSome_get?_eq hbare, Pool.get_eq_ok_iff.1 hn]
    rfl
  refine ⟨?_, hbare⟩
  rw [link?_relink? hp₃, if_pos rfl] at hsome ⊢
  obtain ⟨k, hk⟩ := Option.isSome_iff_exists.1 hsome
  obtain ⟨-, -, rfl⟩ := Option.map_eq_some_iff.1 hk
  exact hk

/-! ## Following the links -/

/-- The slot after slot `i`. -/
def next (s : Strand) (nodes : Nodes κ ν) (i : SlotId) : Except Fault (Option SlotId) :=
  (fun n => (n.link s).next) <$> nodes.get i

/-- The slot before slot `i`. -/
def prev (s : Strand) (nodes : Nodes κ ν) (i : SlotId) : Except Fault (Option SlotId) :=
  (fun n => (n.link s).prev) <$> nodes.get i

theorem walks_next (ht : s.Threads nodes (a ++ b)) (hn : (a ++ b).Nodup) :
    Walks (s.next nodes) b.head? b := by
  induction b generalizing a with
  | nil => exact .stop
  | cons i b ih =>
    obtain ⟨n, hget, hlink⟩ := link_of_threads ht hn
    refine .step (o := b.head?) ?_ (ih (a := a ++ [i]) (by simpa using ht) (by simpa using hn))
    rw [next, Pool.get_eq_ok_iff.2 hget, Fault.map_ok, hlink]

theorem walks_prev (ht : s.Threads nodes (a.reverse ++ b)) (hn : (a.reverse ++ b).Nodup) :
    Walks (s.prev nodes) a.head? a := by
  induction a generalizing b with
  | nil => exact .stop
  | cons i a ih =>
    rw [List.reverse_cons, List.append_assoc, List.singleton_append] at ht hn
    obtain ⟨n, hget, hlink⟩ := link_of_threads ht hn
    refine .step (o := a.head?) ?_ (ih ht hn)
    rw [prev, Pool.get_eq_ok_iff.2 hget, Fault.map_ok, hlink, List.getLast?_reverse]

theorem follow_of_walks {start : Option SlotId} (hw : Walks (s.next nodes) start l) (n : Nat) :
    s.follow nodes n start = .ok (l.take n) := by
  induction hw generalizing n with
  | stop => cases n <;> rfl
  | step h rest ih =>
    cases n with
    | zero => rfl
    | succ n =>
      obtain ⟨node, hget, hlast⟩ := Fault.exists_of_bind h
      cases hlast
      simp only [follow, hget, Fault.ok_bind, ih, Fault.pure_eq, List.take_succ_cons]

theorem follow_eq (n : Nat) (ht : s.Threads nodes l) (hn : l.Nodup) :
    s.follow nodes n l.head? = .ok (l.take n) :=
  follow_of_walks (walks_next (a := []) ht hn) n

theorem walk_eq (ht : s.Threads nodes l) (hn : l.Nodup) (hl : l.length ≤ nodes.live) :
    s.walk nodes l.head? = .ok l := by
  have hall : l.take (nodes.live + 1) = l := List.take_of_length_le (by omega)
  simp [walk, follow_eq _ ht hn, hall, Nat.not_lt.2 hl]

/-- The first `n` slots on the way back from `start`, or all of them if there are fewer. -/
def followBack (s : Strand) (nodes : Nodes κ ν) : Nat → Option SlotId → Except Fault (List SlotId)
  | n + 1, some i => do
    let node ← nodes.get i
    let rest ← s.followBack nodes n (node.link s).prev
    pure (i :: rest)
  | _, _ => pure []

theorem followBack_of_walks {start : Option SlotId} (hw : Walks (s.prev nodes) start l) (n : Nat) :
    s.followBack nodes n start = .ok (l.take n) := by
  induction hw generalizing n with
  | stop => cases n <;> rfl
  | step h rest ih =>
    cases n with
    | zero => rfl
    | succ n =>
      obtain ⟨node, hget, hlast⟩ := Fault.exists_of_bind h
      cases hlast
      simp only [followBack, hget, Fault.ok_bind, ih, Fault.pure_eq, List.take_succ_cons]

theorem walks_prev_getLast? (ht : s.Threads nodes l) (hn : l.Nodup) :
    Walks (s.prev nodes) l.getLast? l.reverse := by
  rw [← List.head?_reverse]
  exact walks_prev (b := []) (by simpa using ht) (by simpa using hn)

/-- A strand that is walked from both ends runs through what is visited. -/
theorem threads_of_walks {first last : Option SlotId} (hn : l.Nodup)
    (hf : Walks (s.next nodes) first l) (hb : Walks (s.prev nodes) last l.reverse) :
    s.Threads nodes l := by
  intro i hi
  obtain ⟨a, b, rfl⟩ := List.append_of_mem hi
  have hia : i ∉ a := fun h => (List.nodup_append.1 hn).2.2 i h i List.mem_cons_self rfl
  rw [List.reverse_append, List.reverse_cons, List.append_assoc, List.singleton_append] at hb
  obtain ⟨n, hget, hnext⟩ := Fault.exists_of_bind hf.next_eq
  obtain ⟨m, hget', hprev⟩ := Fault.exists_of_bind hb.next_eq
  obtain rfl : n = m := Except.ok.inj (hget.symm.trans hget')
  have hlink : n.link s = ⟨a.getLast?, b.head?⟩ := by
    rw [← List.head?_reverse]
    exact Link.ext (Except.ok.inj hprev) (Except.ok.inj hnext)
  rw [Link.within_append_cons none hia, Option.or_none, link?, Pool.get_eq_ok_iff.1 hget,
    Option.map_some, hlink]

theorem followBack_eq (n : Nat) (ht : s.Threads nodes l) (hn : l.Nodup) :
    s.followBack nodes n l.getLast? = .ok (l.reverse.take n) :=
  followBack_of_walks (walks_prev_getLast? ht hn) n

end Strand
end RecencyCache
