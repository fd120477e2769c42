import RecencyCache.Proofs.Strand
import RecencyCache.Recency

/-!
# The order of recency as a list of slots

`Recency.Lists r nodes l` says that `r` and the recency links of `nodes` spell the list `l`. The
three operations are list operations on it: `exists_prepend` conses, `exists_remove` takes one slot
out, `exists_promote` takes it out and conses it. Each of them goes through, also at the head, at
the tail and on a single node, and changes recency links only. `lists_iff_walks` says without single
links what it is to spell a list: it is visited forward from the head and backward from the tail.
-/
namespace RecencyCache.Recency

variable {κ ν : Type}

/-- The order runs through the slots of `l`, the most recent one first. -/
structure Lists (r : Recency) (nodes : Strand.Nodes κ ν) (l : List SlotId) : Prop where
  head : r.head = l.head?
  tail : r.tail = l.getLast?
  size : r.size = l.length
  nodup : l.Nodup
  threads : Strand.recency.Threads nodes l

variable {r : Recency} {p q nodes : Strand.Nodes κ ν} {l a b : List SlotId} {i : SlotId}

theorem lists_nil (nodes : Strand.Nodes κ ν) : Lists {} nodes [] :=
  ⟨rfl, rfl, rfl, List.nodup_nil, by intro i hi; cases hi⟩

theorem Lists.of_link?_eq (h : r.Lists p l)
    (hl : ∀ i ∈ l, Strand.recency.link? q i = Strand.recency.link? p i) : r.Lists q l :=
  { h with threads := fun i hi => (hl i hi).trans (h.threads i hi) }

theorem exists_prepend (h : r.Lists nodes l) (hi : (nodes.get? i).isSome) (hil : i ∉ l) :
    ∃ r' q, r.prepend nodes i = .ok (r', q) ∧ r'.Lists q (i :: l) ∧
      Strand.recency.Relinked nodes q (i :: l) := by
  obtain ⟨q, hq, ht, hr⟩ := Strand.exists_attach h.threads hi hil
  refine ⟨⟨some i, if l.head?.isNone then some i else r.tail, r.size + 1⟩, q, ?_, ?_, hr⟩
  · simp only [prepend, h.head, hq, Fault.ok_bind, Fault.pure_eq]
  refine ⟨rfl, ?_, by simp [h.size], List.nodup_cons.2 ⟨hil, h.nodup⟩, ht⟩
  rw [h.tail]
  cases l with
  | nil => rfl
  | cons j l => simp [List.getLast?_cons]

theorem exists_remove (h : r.Lists nodes (a ++ i :: b)) :
    ∃ r' q, r.remove nodes i = .ok (r', q) ∧ r'.Lists q (a ++ b) ∧
      Strand.recency.Relinked nodes q (a ++ i :: b) := by
  obtain ⟨q, hq, ht, hr⟩ := Strand.exists_detach h.threads h.nodup
  have hsize : r.size = (a ++ b).length + 1 := by
    rw [h.size]
    simp only [List.length_append, List.length_cons]
    omega
  refine ⟨⟨if a.getLast?.isNone then b.head? else r.head,
    if b.head?.isNone then a.getLast? else r.tail, (a ++ b).length⟩, q, ?_, ?_, hr⟩
  · simp only [remove, hq, Fault.ok_bind, hsize, Fault.pure_eq]
  refine ⟨?_, ?_, rfl, (List.nodup_cons.1 (List.nodup_middle.1 h.nodup)).2, ht⟩
  · rw [h.head]
    cases a with
    | nil => simp
    | cons j a => simp [List.getLast?_cons]
  · rw [h.tail]
    cases b with
    | nil => simp
    | cons j b => simp [List.getLast?_append, List.getLast?_cons]

theorem exists_promote (h : r.Lists nodes (a ++ i :: b)) :
    ∃ r' q, r.promote nodes i = .ok (r', q) ∧ r'.Lists q (i :: (a ++ b)) ∧
      Strand.recency.Relinked nodes q (a ++ i :: b) := by
  by_cases hhead : r.head = some i
  · have ha : a = [] := by
      rw [h.head] at hhead
      cases a with
      | nil => rfl
      | cons j a =>
        simp only [List.cons_append, List.head?_cons, Option.some.injEq] at hhead
        subst hhead
        exact absurd h.nodup (by simp)
    subst ha
    exact ⟨r, nodes, by simp [promote, hhead], h, rfl, fun _ _ => rfl⟩
  · obtain ⟨r₁, p, hp, h₁, hr₁⟩ := exists_remove h
    have hi : (p.get? i).isSome := by
      rw [hr₁.isSome_get?]
      exact h.threads.isSome_get? (by simp)
    have hnot : i ∉ a ++ b := (List.nodup_cons.1 (List.nodup_middle.1 h.nodup)).1
    obtain ⟨r₂, q, hq, h₂, hr₂⟩ := exists_prepend h₁ hi hnot
    refine ⟨r₂, q, by simp [promote, hhead, hp, hq], h₂, hr₁.trans hr₂ ?_⟩
    intro j hj
    simpa [or_left_comm] using hj

/-- An order spells the list that is visited from its head and, in reverse, from its tail. -/
theorem lists_iff_walks : r.Lists nodes l ↔ l.Nodup ∧ r.size = l.length ∧
    Walks (Strand.recency.next nodes) r.head l ∧
    Walks (Strand.recency.prev nodes) r.tail l.reverse := by
  constructor
  · intro h
    refine ⟨h.nodup, h.size, ?_, ?_⟩
    · rw [h.head]
      exact Strand.walks_next (a := []) h.threads h.nodup
    · rw [h.tail]
      exact Strand.walks_prev_getLast? h.threads h.nodup
  · rintro ⟨hn, hsize, hf, hb⟩
    have htail := hb.start_eq
    rw [List.head?_reverse] at htail
    exact ⟨hf.start_eq, htail, hsize, hn, Strand.threads_of_walks hn hf hb⟩

/-- **The order is a list.** Whatever list an order spells, it is walked so from both ends, and each
operation goes through and does to the list what it is named for. Of the nodes, only recency links
of those on the list change. -/
theorem lists_prepend_remove_promote (h : r.Lists nodes l) :
    (Walks (Strand.recency.next nodes) r.head l ∧
      Walks (Strand.recency.prev nodes) r.tail l.reverse) ∧
    (∀ i, (nodes.get? i).isSome → i ∉ l → ∃ r' q, r.prepend nodes i = .ok (r', q) ∧
      r'.Lists q (i :: l) ∧ Strand.recency.Relinked nodes q (i :: l)) ∧
    (∀ i ∈ l, ∃ r' q, r.remove nodes i = .ok (r', q) ∧
      r'.Lists q (l.erase i) ∧ Strand.recency.Relinked nodes q l) ∧
    ∀ i ∈ l, ∃ r' q, r.promote nodes i = .ok (r', q) ∧
      r'.Lists q (i :: l.erase i) ∧ Strand.recency.Relinked nodes q l := by
  refine ⟨(lists_iff_walks.1 h).2.2, fun i => exists_prepend h, fun i hi => ?_, fun i hi => ?_⟩
  · obtain ⟨a, b, -, rfl, herase⟩ := List.exists_erase_eq hi
    rw [herase]
    exact exists_remove h
  · obtain ⟨a, b, -, rfl, herase⟩ := List.exists_erase_eq hi
    rw [herase]
    exact exists_promote h

/-- Three nodes are in order, and a fourth one is not. It comes in front, the middle one is taken
out, or the last one is promoted. -/
theorem lists_prepend_remove_promote_of_three :
    let node (key : Nat) (recency : Link) : Slot (Node Nat Unit) :=
      ⟨7, some { entry := ⟨key, ()⟩, stamp := {}, hash := 0, recency }⟩
    let nodes : Strand.Nodes Nat Unit :=
      { slots := #[node 10 ⟨some 1, none⟩, node 11 ⟨some 2, some 0⟩, node 12 ⟨none, some 1⟩,
          node 13 {}]
        live := 4 }
    let r : Recency := ⟨some 2, some 0, 3⟩
    r.Lists nodes [2, 1, 0] ∧
      (∃ r' q, r.prepend nodes 3 = .ok (r', q) ∧ r'.Lists q [3, 2, 1, 0]) ∧
      (∃ r' q, r.remove nodes 1 = .ok (r', q) ∧ r'.Lists q [2, 0]) ∧
      ∃ r' q, r.promote nodes 0 = .ok (r', q) ∧ r'.Lists q [0, 2, 1] ∧
        q.get? 3 = nodes.get? 3 := by
  intro node nodes r
  have h : r.Lists nodes [2, 1, 0] :=
    ⟨rfl, rfl, rfl, by decide, by unfold Strand.Threads; decide⟩
  obtain ⟨-, hprepend, hremove, hpromote⟩ := lists_prepend_remove_promote h
  obtain ⟨r₁, q₁, h₁, hlists₁, -⟩ := hprepend 3 rfl (by decide)
  obtain ⟨r₂, q₂, h₂, hlists₂, -⟩ := hremove 1 (by decide)
  obtain ⟨r₃, q₃, h₃, hlists₃, hrelinked⟩ := hpromote 0 (by decide)
  have hother : q₃.get? 3 = nodes.get? 3 := hrelinked.other 3 (by decide)
  exact ⟨h, ⟨r₁, q₁, h₁, hlists₁⟩, ⟨r₂, q₂, h₂, hlists₂⟩, r₃, q₃, h₃, hlists₃, hother⟩

end RecencyCache.Recency
