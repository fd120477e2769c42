import Mathlib.Tactic.Choose
import RecencyCache.Proofs.Settings.Variables

/-!
# An object sets each parameter at most once

`f.given members` are the values that an object gives for parameter `f`, and `f.Means v o` says that
`v` stands for the word or the absent word `o`. An object gives settings exactly if it has at most
one value for each parameter, and one that means something. Each parameter then is what its value
means, or at its default. The order of the members, and members with other names, make no
difference; and variables that hold the same words give the same settings: `ofValue?_object_exact`.
-/
namespace RecencyCache.Settings

open Document (Value)

/-- The value stands for the word: as a number, or as `null` for a node limit that there is not. -/
inductive Field.Means (f : Field) : Value → Option UInt64 → Prop
  | word (w : UInt64) : f.Means (.natural w.toNat) (some w)
  | null (h : f = .nodeLimit) : f.Means .null none

/-- At most one value is given, and takes parameter `f` from one word to another. -/
inductive Field.Sets (f : Field) (before : Option UInt64) : List Value → Option UInt64 → Prop
  | absent : f.Sets before [] before
  | once {v : Value} {o : Option UInt64} (h : f.Means v o) : f.Sets before [v] o

/-- The values of all members with the name of parameter `f`. -/
def Field.given (f : Field) (members : List (String × Value)) : List Value :=
  members.filterMap fun m => if m.1 = f.name then some m.2 else none

/-- The members take the parameters from those of `s` to those of `t`, and give none of `seen`. -/
def Leads (seen : List Field) (s : Settings) (members : List (String × Value)) (t : Settings) :
    Prop :=
  ∀ f : Field, f.Sets (s.word? f) (f.given members) (t.word? f) ∧ (f ∈ seen → f.given members = [])

/-- Whether a member has the name of a parameter. -/
def isKnown (m : String × Value) : Bool := (Field.ofName? m.1).isSome

/-- An object with these members. -/
def object (members : List (String × Value)) : Value :=
  .object (members.map fun m => (some m.1, m.2))

/-- A value that stands for the word; for the absent word there is `null`, if it is asked for. -/
def Field.value? (f : Field) (null : Bool) : Option UInt64 → Option Value
  | some w => some (.natural w.toNat)
  | none => if f = .nodeLimit ∧ null then some .null else none

/-- Members that give each parameter its word. -/
def saying (words : Field → Option UInt64) (null : Bool) : List (String × Value) :=
  Field.all.filterMap fun f => (f.value? null (words f)).map (f.name, ·)

variable {f g : Field} {name : String} {v : Value} {vs vs' : List Value} {w : UInt64}
  {o before : Option UInt64} {members members' : List (String × Value)} {s t : Settings}
  {seen : List Field} {words : Field → Option UInt64}

/-! ## One value -/

theorem wordOf?_eq_some_iff : wordOf? v = some w ↔ v = .natural w.toNat := by
  cases v with
  | natural n =>
    rw [wordOf?, Text.word?_eq_some_iff, Value.natural.injEq]
    exact eq_comm
  | _ => simp [wordOf?]

theorem means_of_set? (h : s.set? f v = some t) : ∃ o, f.Means v o := by
  have hword : ∀ w, wordOf? v = some w → f.Means v (some w) := by
    intro w hw
    rw [wordOf?_eq_some_iff.1 hw]
    exact .word w
  cases f with
  | capacity | chainCount | windowMillis =>
    obtain ⟨w, hw, -⟩ := Option.map_eq_some_iff.1 h
    exact ⟨_, hword w hw⟩
  | nodeLimit =>
    obtain ⟨o, ho, -⟩ := Option.map_eq_some_iff.1 h
    cases v with
    | null => exact ⟨none, .null rfl⟩
    | natural n =>
      obtain ⟨w, hw, -⟩ := Option.map_eq_some_iff.1 ho
      exact ⟨_, hword w hw⟩
    | _ => cases ho

/-- A value that means something sets its parameter, and no other. -/
theorem exists_set? (h : f.Means v o) (s : Settings) :
    ∃ t, s.set? f v = some t ∧ t.word? f = o ∧ ∀ g, g ≠ f → t.word? g = s.word? g := by
  cases h with
  | word w =>
    have hw : wordOf? (.natural w.toNat) = some w := wordOf?_eq_some_iff.2 rfl
    cases f
    all_goals
      refine ⟨_, by simp only [set?, optionalWordOf?, hw, Option.map_some]; rfl, rfl, ?_⟩
      intro g hg
      cases g <;> first | rfl | exact absurd rfl hg
  | null h =>
    subst h
    refine ⟨{ s with nodeLimit := none }, rfl, rfl, ?_⟩
    intro g hg
    cases g <;> first | rfl | exact absurd rfl hg

theorem set?_eq_some_iff :
    s.set? f v = some t ↔ f.Means v (t.word? f) ∧ ∀ g, g ≠ f → t.word? g = s.word? g := by
  constructor
  · intro h
    obtain ⟨o, ho⟩ := means_of_set? h
    obtain ⟨t', ht', hf, hother⟩ := exists_set? ho s
    obtain rfl : t = t' := Option.some.inj (h.symm.trans ht')
    exact ⟨hf.symm ▸ ho, hother⟩
  · rintro ⟨hf, hother⟩
    obtain ⟨t', ht', hf', hother'⟩ := exists_set? hf s
    have htt' : t' = t := by
      refine eq_of_word? fun g => ?_
      by_cases hg : g = f
      · rw [hg, hf']
      · rw [hother' g hg, hother g hg]
    rw [ht', htt']

/-! ## The values of one parameter -/

theorem ofName?_eq_some_iff : Field.ofName? name = some f ↔ name = f.name := by
  constructor
  · intro h
    have hbeq := List.find?_some h
    exact (beq_iff_eq.1 hbeq).symm
  · rintro rfl
    cases f <;> decide

theorem name_inj (h : f.name = g.name) : f = g :=
  Option.some.inj ((ofName?_eq_some_iff.2 rfl).symm.trans (ofName?_eq_some_iff.2 h))

theorem given_cons (f : Field) (m : String × Value) (members : List (String × Value)) :
    f.given (m :: members) =
      if Field.ofName? m.1 = some f then m.2 :: f.given members else f.given members := by
  simp only [Field.given, List.filterMap_cons, ofName?_eq_some_iff]
  split <;> simp_all

theorem given_filter_isKnown (f : Field) (members : List (String × Value)) :
    f.given (members.filter isKnown) = f.given members := by
  induction members with
  | nil => rfl
  | cons m members ih =>
    rw [List.filter_cons, given_cons]
    by_cases hm : Field.ofName? m.1 = some f
    · have hknown : isKnown m = true := by rw [isKnown, hm, Option.isSome_some]
      rw [if_pos hknown, given_cons, if_pos hm, if_pos hm, ih]
    · rw [if_neg hm]
      split
      · rw [given_cons, if_neg hm, ih]
      · exact ih

/-- The order of members, and other members, do not matter to what is given, but for its order. -/
theorem given_perm (h : (members.filter isKnown).Perm (members'.filter isKnown)) (f : Field) :
    (f.given members).Perm (f.given members') := by
  rw [← given_filter_isKnown f members, ← given_filter_isKnown f members']
  exact h.filterMap _

namespace Field.Sets

theorem of_perm (h : f.Sets before vs o) (hp : vs.Perm vs') : f.Sets before vs' o := by
  cases h with
  | absent =>
    rw [List.nil_perm.1 hp]
    exact .absent
  | once h =>
    rw [← List.singleton_perm.1 hp]
    exact .once h

/-- What is not given is at its default. -/
theorem or_default (h : f.Sets none vs o) : f.Sets (word? {} f) vs (o.or (word? {} f)) := by
  cases h with
  | absent => exact .absent
  | once h =>
    cases h with
    | word w => exact .once (.word w)
    | null h =>
      subst h
      exact .once (.null rfl)

theorem length_le (h : f.Sets before vs o) : vs.length ≤ 1 := by
  cases h with
  | absent => exact Nat.zero_le 1
  | once h => exact Nat.le_refl 1

theorem means_of_mem (h : f.Sets before vs o) (hv : v ∈ vs) : f.Means v o := by
  cases h with
  | absent => cases hv
  | once h => rwa [List.mem_singleton.1 hv]

theorem iff_of_nil : f.Sets before [] o ↔ o = before := by
  constructor
  · rintro ⟨⟩
    rfl
  · rintro rfl
    exact .absent

/-- The value that comes first has to be the only one. -/
theorem iff_of_cons : f.Sets before (v :: vs) o ↔ f.Means v o ∧ vs = [] := by
  constructor
  · rintro (_ | h)
    exact ⟨h, rfl⟩
  · rintro ⟨h, rfl⟩
    exact .once h

end Field.Sets

/-! ## All members -/

theorem leads_nil_iff : Leads seen s [] t ↔ s = t := by
  constructor
  · intro h
    exact eq_of_word? fun f => (Field.Sets.iff_of_nil.1 (h f).1).symm
  · rintro rfl f
    exact ⟨.absent, fun _ => rfl⟩

theorem leads_cons_iff_of_unknown (hname : Field.ofName? name = none) :
    Leads seen s ((name, v) :: members) t ↔ Leads seen s members t := by
  have hgiven : ∀ f : Field, f.given ((name, v) :: members) = f.given members := by
    intro f
    rw [given_cons, hname, if_neg (Option.some_ne_none f).symm]
  simp only [Leads, hgiven]

/-- A member sets its parameter, and no later one may. -/
theorem leads_cons_iff (hname : Field.ofName? name = some g) :
    Leads seen s ((name, v) :: members) t ↔
      g ∉ seen ∧ ∃ s', s.set? g v = some s' ∧ Leads (g :: seen) s' members t := by
  have hself : g.given ((name, v) :: members) = v :: g.given members := by
    rw [given_cons, if_pos hname]
  have hother : ∀ f, f ≠ g → f.given ((name, v) :: members) = f.given members := by
    intro f hf
    rw [given_cons, hname, if_neg fun e => hf (Option.some.inj e).symm]
  constructor
  · intro h
    obtain ⟨hset, hseen⟩ := h g
    rw [hself] at hset hseen
    obtain ⟨hmeans, hnil⟩ := Field.Sets.iff_of_cons.1 hset
    obtain ⟨s', hs', hword, hkept⟩ := exists_set? hmeans s
    refine ⟨fun hg => List.cons_ne_nil _ _ (hseen hg), s', hs', fun f => ?_⟩
    by_cases hf : f = g
    · subst hf
      rw [hnil, hword]
      exact ⟨.absent, fun _ => rfl⟩
    · have hfs := h f
      rw [hother f hf] at hfs
      rw [hkept f hf]
      exact ⟨hfs.1, fun hseen => hfs.2 ((List.mem_cons.1 hseen).resolve_left hf)⟩
  · rintro ⟨hg, s', hs', h⟩ f
    obtain ⟨hmeans, hkept⟩ := set?_eq_some_iff.1 hs'
    obtain ⟨hset, hseen⟩ := h f
    by_cases hf : f = g
    · subst hf
      have hnil := hseen List.mem_cons_self
      rw [hnil, Field.Sets.iff_of_nil] at hset
      rw [hself, hnil, hset]
      exact ⟨.once hmeans, fun hseen => absurd hseen hg⟩
    · rw [hother f hf, ← hkept f hf]
      exact ⟨hset, fun hmem => hseen (List.mem_cons_of_mem _ hmem)⟩

/-- **Reading the members.** -/
theorem setMembers?_eq_some_iff : setMembers? seen s members = some t ↔ Leads seen s members t := by
  induction members generalizing seen s with
  | nil => rw [setMembers?, Option.some.injEq, leads_nil_iff]
  | cons m members ih =>
    obtain ⟨name, v⟩ := m
    rw [setMembers?]
    cases hname : Field.ofName? name with
    | none => exact ih.trans (leads_cons_iff_of_unknown hname).symm
    | some g =>
      rw [leads_cons_iff hname]
      by_cases hg : g ∈ seen
      · simp only [hg, if_true, not_true, false_and, reduceCtorEq]
      · simp only [hg, if_false, not_false_eq_true, true_and, Option.bind_eq_some_iff, ih]

theorem ofValue?_object (members : List (String × Value)) :
    ofValue? (object members) = ofMembers? members := by
  have hnames : (members.map fun m => (some m.1, m.2)).mapM named? = some members := by
    rw [List.mapM_map]
    exact (List.mapM_pure (m := Option) (f := id)).trans (congrArg some (List.map_id members))
  exact congrArg (·.bind ofMembers?) hnames

/-- The settings that an object gives. -/
theorem ofValue?_object_eq_some_iff : ofValue? (object members) = some s ↔
    ∀ f : Field, f.Sets (word? {} f) (f.given members) (s.word? f) := by
  rw [ofValue?_object, ofMembers?, setMembers?_eq_some_iff]
  simp [Leads]

theorem ofValue?_object_perm (h : (members.filter isKnown).Perm (members'.filter isKnown)) :
    ofValue? (object members) = ofValue? (object members') := by
  refine Option.ext fun s => ?_
  simp only [ofValue?_object_eq_some_iff]
  exact forall_congr' fun f => ⟨(·.of_perm (given_perm h f)), (·.of_perm (given_perm h f).symm)⟩

/-- An object and variables that give each parameter the same word give the same settings. -/
theorem ofValue?_object_of_words (h : ∀ f : Field, f.Sets none (f.given members) (words f))
    (plus : Field → Bool) (zeros : Field → Nat) :
    ofValue? (object members) = some (ofVariables (renderings words plus zeros)) := by
  refine ofValue?_object_eq_some_iff.2 fun f => ?_
  rw [word?_renderings]
  exact (h f).or_default

theorem isSome_ofValue?_object_iff : (ofValue? (object members)).isSome ↔
    ∀ f : Field, (f.given members).length ≤ 1 ∧ ∀ v ∈ f.given members, ∃ o, f.Means v o := by
  constructor
  · intro h f
    obtain ⟨s, hs⟩ := Option.isSome_iff_exists.1 h
    have hset := ofValue?_object_eq_some_iff.1 hs f
    exact ⟨hset.length_le, fun v hv => ⟨_, hset.means_of_mem hv⟩⟩
  · intro h
    have hwords : ∀ f : Field, ∃ o, f.Sets none (f.given members) o := by
      intro f
      obtain ⟨hlength, hmeans⟩ := h f
      match hvs : f.given members with
      | [] => exact ⟨none, .absent⟩
      | [v] =>
        obtain ⟨o, ho⟩ := hmeans v (by rw [hvs]; exact List.mem_cons_self)
        exact ⟨o, .once ho⟩
      | _ :: _ :: _ => simp [hvs] at hlength
    choose words hwords using hwords
    rw [ofValue?_object_of_words hwords (fun _ => false) fun _ => 0, Option.isSome_some]

/-! ## Members for given words -/

theorem given_saying (words : Field → Option UInt64) (null : Bool) (f : Field) :
    f.given (saying words null) = (f.value? null (words f)).toList := by
  have hone : ∀ g : Field, (((g.value? null (words g)).map (g.name, ·)).bind fun m =>
      if m.1 = f.name then some m.2 else none) =
        if g = f then f.value? null (words f) else none := by
    intro g
    by_cases hg : g = f
    · subst hg
      cases g.value? null (words g) <;> simp
    · have hname : g.name ≠ f.name := fun e => hg (name_inj e)
      cases g.value? null (words g) <;> simp [hg, hname]
  rw [Field.given, saying, List.filterMap_filterMap]
  simp only [hone]
  generalize f.value? null (words f) = o
  cases o <;> cases f <;> rfl

theorem sets_saying (words : Field → Option UInt64) (null : Bool) (f : Field) :
    f.Sets none (f.given (saying words null)) (words f) := by
  rw [given_saying]
  cases words f with
  | some w => exact .once (.word w)
  | none =>
    rw [Field.value?]
    split
    · rename_i h
      exact .once (.null h.1)
    · exact .absent

/-- **Settings from an object.** They exist exactly if no parameter is given twice and every value
given for one is acceptable. Each parameter then is what its value stands for, or at its default.
Other members and the order of all of them do not matter, and an object that gives words gives the
settings that variables with these words give. -/
theorem ofValue?_object_exact :
    (∀ members, (ofValue? (object members)).isSome ↔
      ∀ f : Field, (f.given members).length ≤ 1 ∧ ∀ v ∈ f.given members, ∃ o, f.Means v o) ∧
    (∀ members s, ofValue? (object members) = some s → ∀ f : Field,
      (∀ v ∈ f.given members, f.Means v (s.word? f)) ∧
        (f.given members = [] → s.word? f = word? {} f)) ∧
    (∀ members members', (members.filter isKnown).Perm (members'.filter isKnown) →
      ofValue? (object members) = ofValue? (object members')) ∧
    ∀ words null plus zeros, ofValue? (object (saying words null)) =
      some (ofVariables (renderings words plus zeros)) := by
  refine ⟨fun members => isSome_ofValue?_object_iff, fun members s hs f => ?_,
    fun members members' => ofValue?_object_perm,
    fun words null => ofValue?_object_of_words (sets_saying words null)⟩
  have hset := ofValue?_object_eq_some_iff.1 hs f
  refine ⟨fun v => hset.means_of_mem, fun hnil => ?_⟩
  rwa [hnil, Field.Sets.iff_of_nil] at hset

/-- Members of other names stand between those of a capacity and of no node limit. -/
theorem ofValue?_object_exact_of_strangers :
    let members : List (String × Value) :=
      [("note", .text none), ("node_limit", .null), ("Max_Size", .real), ("max_size", .natural 8)]
    let members' : List (String × Value) := [("max_size", .natural 8), ("node_limit", .null)]
    let s : Settings := { capacity := 8 }
    ((members.filter isKnown).Perm (members'.filter isKnown) ∧
      ofValue? (object members) = some s ∧ Field.chainCount.given members = []) ∧
    (ofValue? (object members) = ofValue? (object members') ∧
      (∀ v ∈ Field.capacity.given members, Field.capacity.Means v (some 8)) ∧
      s.word? .chainCount = some 32) := by
  intro members members' s
  have hperm : (members.filter isKnown).Perm (members'.filter isKnown) := List.Perm.swap ..
  have hs : ofValue? (object members) = some s := rfl
  have hnil : Field.chainCount.given members = [] := rfl
  have hfields := ofValue?_object_exact.2.1 members s hs
  exact ⟨⟨hperm, hs, hnil⟩, ofValue?_object_exact.2.2.1 members members' hperm,
    (hfields .capacity).1, (hfields .chainCount).2 hnil⟩

end RecencyCache.Settings
