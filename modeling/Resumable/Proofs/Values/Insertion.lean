import Resumable.Proofs.Values.Distinct

/-!
This module contains what maps and sets hold, however they are built by the constructors and by
`conj`. A map finds for a key the value that was put in last under an equal key, a set holds one of
all items that equal each other.
-/

namespace Resumable

namespace Value

def findLast? (pairs : List (Value × Value)) (key : Value) : Option Value :=
  (pairs.reverse.find? fun pair => pair.1 == key).map (·.2)

theorem findLast?_append_singleton (pairs : List (Value × Value)) (pair : Value × Value)
    (key : Value)
    : findLast? (pairs ++ [pair]) key
        =
      if (pair.1 == key) = true then some pair.2 else findLast? pairs key := by
  rw [findLast?, List.reverse_concat, List.find?_cons]
  split <;> simp_all [findLast?]

theorem findEntry?_cons (entry : Value × Value) (entries : List (Value × Value)) (key : Value)
    : findEntry? (entry :: entries) key
        =
      if (entry.1 == key) = true then some entry.2 else findEntry? entries key := by
  rw [ findEntry?, List.find?_cons]
  split <;> simp_all [ findEntry?]

structure Keeps (pairs entries : List (Value × Value)) : Prop where
  unrepeated : (map entries).Unrepeated
  keys : ∀ entry ∈ entries, ∃ pair ∈ pairs, pair.1 = entry.1
  found : (∀ pair ∈ pairs, pair.1.Distinct) → ∀ key, findEntry? entries key = findLast? pairs key

section

variable {entries pairs : List (Value × Value)} {key value : Value}

theorem beq_congr {a b c : Value} (ha : a.Distinct) (hab : (a == b) = true) : (a == c) = (b == c) :=
  Bool.eq_iff_iff.2 ⟨beq_trans (beq_symm ha hab), beq_trans hab⟩

theorem pairwise_apart {α : Type} {l : List α} {f : α → Value}
    (h : l.Pairwise fun a b => (f a == f b) = false) (hdistinct : ∀ a ∈ l, (f a).Distinct)
    : l.Pairwise fun a b => (f a == f b) = false ∧ (f b == f a) = false := by
  refine h.imp_of_mem fun {a b} _ hb hab => ⟨hab, ?_⟩
  rw [Bool.eq_false_iff] at hab ⊢
  exact fun hba => hab (beq_symm (hdistinct b hb) hba)

theorem findEntry?_setEntry (hkey : key.Distinct) (hentries : ∀ entry ∈ entries, entry.1.Distinct)
    (q : Value)
    : findEntry? (setEntry entries key value) q
        =
      if (key == q) = true then some value else findEntry? entries q := by
  induction entries with
  | nil => exact findEntry?_cons (key, value) [] q
  | cons entry entries ih =>
    obtain ⟨hentry, hrest⟩ := List.forall_mem_cons.1 hentries
    rw [setEntry, findEntry?_cons entry]
    split
    . next hsame =>
      rw [findEntry?_cons, beq_congr hentry hsame]
      split <;> rfl
    . next hother =>
      rw [findEntry?_cons, ih hrest]
      by_cases hq : (key == q) = true
      . have hentryq : ¬ (entry.1 == q) = true := fun h => hother (beq_trans h (beq_symm hkey hq))
        rw [if_neg hentryq, if_pos hq, if_pos hq]
      . rw [if_neg hq, if_neg hq]

theorem findEntry?_append (entries more : List (Value × Value)) (q : Value)
    : findEntry? (entries ++ more) q = ( findEntry? entries q).or ( findEntry? more q) := by
  rw [ findEntry?, List.find?_append, Option.map_or]
  rfl

theorem findEntry?_filter (hkey : key.Distinct) (hentries : ∀ entry ∈ entries, entry.1.Distinct)
    (q : Value)
    : findEntry? (entries.filter fun entry => !(entry.1 == key)) q
        =
      if (key == q) = true then none else findEntry? entries q := by
  induction entries with
  | nil => simp [ findEntry?]
  | cons entry entries ih =>
    obtain ⟨hentry, hrest⟩ := List.forall_mem_cons.1 hentries
    rw [List.filter_cons, findEntry?_cons entry]
    by_cases hsame : (entry.1 == key) = true
    . rw [hsame, beq_congr hentry hsame, if_neg (by simp), ih hrest]
      split <;> rfl
    . rw [if_pos (by simp [hsame]), findEntry?_cons, ih hrest]
      by_cases hq : (key == q) = true
      . have hentryq : ¬ (entry.1 == q) = true := fun h => hsame (beq_trans h (beq_symm hkey hq))
        rw [if_neg hentryq, if_pos hq, if_pos hq]
      . rw [if_neg hq, if_neg hq]

theorem setEntry_of_new (h : ∀ entry ∈ entries, (entry.1 == key) = false)
    : setEntry entries key value = entries ++ [(key, value)] := by
  induction entries with
  | nil => rfl
  | cons entry entries ih =>
    obtain ⟨hentry, hrest⟩ := List.forall_mem_cons.1 h
    rw [setEntry, if_neg (Bool.eq_false_iff.1 hentry), ih hrest, List.cons_append]

theorem ofEntries_of_unrepeated (h : (map entries).Unrepeated)
    : ofEntries entries = map entries := by
  have hfold : ∀ {done entries : List (Value × Value)}, (map (done ++ entries)).Unrepeated →
      entries.foldl (fun entries entry => setEntry entries entry.1 entry.2) done
        = done ++ entries := by
    intro done entries h
    induction entries generalizing done with
    | nil => rw [List.foldl_nil, List.append_nil]
    | cons entry entries ih =>
      have hnew : ∀ old ∈ done, (old.1 == entry.1) = false := fun old hold =>
        (List.pairwise_append.1 h).2.2 old hold entry List.mem_cons_self
      rw [List.foldl_cons, setEntry_of_new hnew]
      exact (ih (List.append_cons .. ▸ h)).trans (List.append_cons ..).symm
  exact congrArg map (@hfold [] entries h)

namespace Keeps

theorem nil : Keeps [] [] where
  unrepeated := .nil
  keys := List.forall_mem_nil _
  found _ _ := rfl

theorem distinct (h : Keeps pairs entries) (hpairs : ∀ pair ∈ pairs, pair.1.Distinct)
    : ∀ entry ∈ entries, entry.1.Distinct := by
  intro entry hentry
  obtain ⟨pair, hpair, heq⟩ := h.keys entry hentry
  exact heq ▸ hpairs pair hpair

theorem setEntry (h : Keeps pairs entries)
    : Keeps (pairs ++ [(key, value)]) (setEntry entries key value) where
  unrepeated := unrepeated_setEntry h.unrepeated
  keys := by
    have hkeys : ∀ entry ∈ Value.setEntry entries key value,
        (∃ pair ∈ pairs ++ [(key, value)], pair.1 = entry.1) ∧ True := by
      refine forall_mem_setEntry (P := fun k => ∃ pair ∈ pairs ++ [(key, value)], pair.1 = k)
        (Q := fun _ => True) (fun entry hentry => ⟨?_, trivial⟩) ⟨(key, value), by simp, rfl⟩
        trivial
      obtain ⟨pair, hpair, heq⟩ := h.keys entry hentry
      exact ⟨pair, List.mem_append_left _ hpair, heq⟩
    exact fun entry hentry => (hkeys entry hentry).1
  found hdistinct q := by
    obtain ⟨hpairs, hkey⟩ := List.forall_mem_append.1 hdistinct
    rw [findEntry?_setEntry (hkey _ (List.mem_singleton_self _)) (h.distinct hpairs),
      h.found hpairs, findLast?_append_singleton]

theorem ofEntries (pairs : List (Value × Value))
    : ∃ entries, ofEntries pairs = .map entries ∧ Keeps pairs entries := by
  refine ⟨_, rfl, ?_⟩
  induction pairs using List.reverseRecOn with
  | nil => exact nil
  | append_singleton pairs pair ih =>
    rw [List.foldl_append]
    exact ih.setEntry

theorem conjEntry (h : Keeps pairs entries) {item : Value}
    (hitem : item.elements? = some [key, value])
    : ∃ entries', Primitive.conjEntry entries item = .ok entries' ∧
        Keeps (pairs ++ [(key, value)]) entries' := by
  refine ⟨entries.filter (fun entry => !(entry.1 == key)) ++ [(key, value)], ?_, ?_, ?_, ?_⟩
  . rw [Primitive.conjEntry, hitem]
  . refine List.pairwise_append.2 ⟨h.unrepeated.filter _, List.pairwise_singleton _ _, ?_⟩
    intro entry hentry new hnew
    rw [List.mem_singleton.1 hnew]
    simpa using (List.mem_filter.1 hentry).2
  . refine List.forall_mem_append.2 ⟨fun entry hentry => ?_, ?_⟩
    . obtain ⟨pair, hpair, heq⟩ := h.keys entry (List.mem_filter.1 hentry).1
      exact ⟨pair, List.mem_append_left _ hpair, heq⟩
    . exact List.forall_mem_singleton.2 ⟨(key, value), by simp, rfl⟩
  . intro hdistinct q
    obtain ⟨hpairs, hkey⟩ := List.forall_mem_append.1 hdistinct
    rw [findEntry?_append,
      findEntry?_filter (hkey _ (List.mem_singleton_self _)) (h.distinct hpairs), h.found hpairs,
      findLast?_append_singleton, findEntry?_cons]
    split
    . rfl
    . exact Option.or_none

end Keeps

end

structure Collects (items members : List Value) : Prop where
  unrepeated : (set members).Unrepeated
  inside : ∀ member ∈ members, member ∈ items
  met : ∀ item ∈ items, ∃ member ∈ members, member = item ∨ (member == item) = true

def classOf (items : List Value) (item : Value) : Set Value :=
  {other | other ∈ items ∧ (item == other) = true}

def classes (items : List Value) : Set (Set Value) :=
  classOf items '' {item | item ∈ items}

namespace Collects

variable {items members : List Value}

theorem nil : Collects [] [] where
  unrepeated := .nil
  inside := List.forall_mem_nil _
  met := List.forall_mem_nil _

theorem addMember (h : Collects items members) (item : Value)
    : Collects (items ++ [item]) (addMember members item) := by
  have hunrepeated : (set (Value.addMember members item)).Unrepeated :=
    unrepeated_addMember h.unrepeated
  have hinside : ∀ member ∈ Value.addMember members item, member ∈ items ++ [item] :=
    forall_mem_addMember (fun member hmember => List.mem_append_left _ (h.inside member hmember))
      (by simp)
  refine ⟨hunrepeated, hinside, List.forall_mem_append.2 ⟨fun other hother => ?_, ?_⟩⟩
  . obtain ⟨member, hmember, hmet⟩ := h.met other hother
    refine ⟨member, ?_, hmet⟩
    unfold Value.addMember
    split
    . exact hmember
    . exact List.mem_append_left _ hmember
  . refine List.forall_mem_singleton.2 ?_
    unfold Value.addMember
    split
    . next hthere =>
      obtain ⟨member, hmember, heq⟩ := List.any_eq_true.1 hthere
      exact ⟨member, hmember, .inr heq⟩
    . exact ⟨item, by simp, .inl rfl⟩

theorem addMembers (h : Collects items members) (more : List Value)
    : Collects (items ++ more) (more.foldl Value.addMember members) := by
  induction more generalizing items members with
  | nil => rwa [List.append_nil]
  | cons item more ih =>
    rw [List.append_cons]
    exact ih (h.addMember item)

theorem ofMembers (items : List Value)
    : ∃ members, ofMembers items = .set members ∧ Collects items members :=
  ⟨_, rfl, nil.addMembers items⟩

theorem isMember_iff (h : Collects items members) (value : Value)
    : isMember members value = true ↔ ∃ item ∈ items, (item == value) = true := by
  unfold isMember
  rw [List.any_eq_true]
  constructor
  . rintro ⟨member, hmember, heq⟩
    exact ⟨member, h.inside member hmember, heq⟩
  . rintro ⟨item, hitem, heq⟩
    obtain ⟨member, hmember, rfl | hmet⟩ := h.met item hitem
    . exact ⟨member, hmember, heq⟩
    . exact ⟨member, hmember, beq_trans hmet heq⟩

theorem apart (h : Collects items members) (hdistinct : ∀ item ∈ items, item.Distinct)
    : members.Pairwise fun a b => (a == b) = false ∧ (b == a) = false :=
  pairwise_apart h.unrepeated fun member hmember => hdistinct member (h.inside member hmember)

theorem length_eq (h : Collects items members) (hdistinct : ∀ item ∈ items, item.Distinct)
    (hself : ∀ item ∈ items, (item == item) = true)
    : members.length = (classes items).ncard := by
  classical
  have hsame : ∀ {a b : Value}, a ∈ items → (a == b) = true → classOf items a = classOf items b :=
    fun ha hab => Set.ext fun other => by
      simp only [classOf, Set.mem_ofPred_eq, beq_congr (hdistinct _ ha) hab]
  have hclasses : classes items = classOf items '' {member | member ∈ members} := by
    refine Set.Subset.antisymm ?_ (Set.image_mono h.inside)
    rintro _ ⟨item, hitem, rfl⟩
    obtain ⟨member, hmember, rfl | hmet⟩ := h.met item hitem
    . exact ⟨member, hmember, rfl⟩
    . exact ⟨member, hmember, hsame (h.inside member hmember) hmet⟩
  have hinjective : Set.InjOn (classOf items) {member | member ∈ members} := by
    intro a ha b hb hclass
    have hself' : b ∈ classOf items b := ⟨h.inside b hb, hself b (h.inside b hb)⟩
    have hab : (a == b) = true := (hclass ▸ hself').2
    by_contra hne
    have : Std.Symm fun a b : Value => (a == b) = false ∧ (b == a) = false := ⟨fun _ _ h => h.symm⟩
    have hapart := (h.apart hdistinct).forall ha hb hne
    exact Bool.eq_false_iff.1 hapart.1 hab
  have hnodup : members.Nodup := h.unrepeated.imp_of_mem fun {a b} ha _ hapart heq => by
    rw [← heq, hself a (h.inside a ha)] at hapart
    cases hapart
  rw [hclasses, hinjective.ncard_image, ← List.coe_toFinset, Set.ncard_coe_finset,
    List.toFinset_card_of_nodup hnodup]

end Collects

theorem addMembers_of_unrepeated {done members : List Value}
    (h : (set (done ++ members)).Unrepeated)
    : members.foldl addMember done = done ++ members := by
  induction members generalizing done with
  | nil => rw [List.foldl_nil, List.append_nil]
  | cons member members ih =>
    have hnew : ¬ isMember done member = true := fun hthere => by
      obtain ⟨other, hother, heq⟩ := List.any_eq_true.1 hthere
      have hapart := (List.pairwise_append.1 h).2.2 other hother member List.mem_cons_self
      exact Bool.eq_false_iff.1 hapart heq
    rw [List.foldl_cons, addMember, if_neg hnew]
    exact (ih (List.append_cons .. ▸ h)).trans (List.append_cons ..).symm

end Value

namespace Primitive

open Value (Keeps Collects)

/--
Whether a value is a sequence of a key and a value, as `conj` takes them for maps.
-/
def IsEntry (item : Value) (pair : Value × Value) : Prop :=
  item.elements? = some [pair.1, pair.2]

def conjAll (collection : Value) (calls : List (List Value)) : Action Value :=
  calls.foldlM (fun collection items => conj.call (collection :: items)) collection

section

variable {pairs entries : List (Value × Value)} {items : List Value}

theorem conjEntry_ok {entries' : List (Value × Value)} {item : Value}
    (h : conjEntry entries item = .ok entries')
    : ∃ pair, IsEntry item pair := by
  unfold conjEntry at h
  split at h
  . next key value hitem => exact ⟨(key, value), hitem⟩
  . cases h

theorem foldlM_conjEntry_ok {entries' : List (Value × Value)}
    (h : items.foldlM conjEntry entries = .ok entries')
    : ∃ more, List.Forall₂ IsEntry items more := by
  induction items generalizing entries with
  | nil => exact ⟨[], .nil⟩
  | cons item items ih =>
    rw [List.foldlM_cons] at h
    obtain ⟨next, hnext, hrest⟩ := exists_of_bind_ok h
    obtain ⟨pair, hpair⟩ := conjEntry_ok hnext
    obtain ⟨more, hmore⟩ := ih hrest
    exact ⟨pair :: more, .cons hpair hmore⟩

theorem foldlM_conjEntry (h : Keeps pairs entries) {more : List (Value × Value)}
    (hitems : List.Forall₂ IsEntry items more)
    : ∃ entries', items.foldlM conjEntry entries = .ok entries' ∧
        Keeps (pairs ++ more) entries' := by
  induction hitems generalizing pairs entries with
  | nil => exact ⟨entries, rfl, (List.append_nil pairs).symm ▸ h⟩
  | @cons item pair items more hitem _ ih =>
    obtain ⟨next, hnext, hkeeps⟩ := h.conjEntry hitem
    obtain ⟨entries', hrest, hkeeps'⟩ := ih hkeeps
    refine ⟨entries', ?_, ?_⟩
    . rw [List.foldlM_cons, hnext]
      exact hrest
    . rwa [List.append_cons]

theorem conjTo_map_ok {m : Value} (h : conjTo (.map entries) items = .ok m)
    : ∃ more entries', List.Forall₂ IsEntry items more ∧ m = .map entries' := by
  obtain ⟨entries', hentries, hm⟩ := exists_of_bind_ok h
  obtain ⟨more, hmore⟩ := foldlM_conjEntry_ok hentries
  cases hm
  exact ⟨more, _, hmore, rfl⟩

theorem conjTo_map (h : Keeps pairs entries) {more : List (Value × Value)}
    (hitems : List.Forall₂ IsEntry items more)
    : ∃ entries', conjTo (.map entries) items = .ok (.map entries') ∧
        Keeps (pairs ++ more) entries' := by
  obtain ⟨entries', hentries, hkeeps⟩ := foldlM_conjEntry h hitems
  refine ⟨entries', ?_, hkeeps⟩
  rw [conjTo, hentries]
  exact congrArg Except.ok (Value.ofEntries_of_unrepeated hkeeps.unrepeated)

theorem conjTo_set {members : List Value} (h : Collects items members) (more : List Value)
    : ∃ members', conjTo (.set members) more = .ok (.set members') ∧
        Collects (items ++ more) members' := by
  refine ⟨_, ?_, h.addMembers more⟩
  rw [conjTo, Value.ofMembers, List.foldl_append,
    @Value.addMembers_of_unrepeated [] members h.unrepeated, List.nil_append]

theorem conjAll_of_ok {collection next : Value} (h : conjTo collection items = .ok next)
    (calls : List (List Value)) (store : Store)
    : conjAll collection (items :: calls) store = conjAll next calls store := by
  have hcall : conj.call (collection :: items) = Action.ofExcept (conjTo collection items) := rfl
  rw [conjAll, List.foldlM_cons, hcall, h]
  rfl

theorem conjAll_of_error {collection : Value} {fault : Fault}
    (h : conjTo collection items = .error fault)
    (calls : List (List Value)) (store : Store)
    : conjAll collection (items :: calls) store = .error (.thrown fault.toValue) store := by
  have hcall : conj.call (collection :: items) = Action.ofExcept (conjTo collection items) := rfl
  rw [conjAll, List.foldlM_cons, hcall, h]
  rfl

theorem conjAll_map (h : Keeps pairs entries) {calls : List (List Value)}
    {rows : List (List (Value × Value))} (hcalls : List.Forall₂ (List.Forall₂ IsEntry) calls rows)
    (store : Store)
    : ∃ entries', conjAll (.map entries) calls store = .ok (.map entries') store ∧
        Keeps (pairs ++ rows.flatten) entries' := by
  induction hcalls generalizing pairs entries with
  | nil => exact ⟨entries, rfl, (List.append_nil pairs).symm ▸ h⟩
  | @cons items row calls rows hitems _ ih =>
    obtain ⟨next, hnext, hkeeps⟩ := conjTo_map h hitems
    obtain ⟨entries', hrest, hkeeps'⟩ := ih hkeeps
    refine ⟨entries', ?_, ?_⟩
    . rw [conjAll_of_ok hnext, hrest]
    . rwa [List.flatten_cons, ← List.append_assoc]

theorem conjAll_map_ok {calls : List (List Value)} {m : Value} {store store' : Store}
    (h : conjAll (.map entries) calls store = .ok m store')
    : ∃ rows, List.Forall₂ (List.Forall₂ IsEntry) calls rows := by
  induction calls generalizing entries with
  | nil => exact ⟨[], .nil⟩
  | cons items calls ih =>
    cases hnext : conjTo (.map entries) items with
    | error fault =>
      rw [conjAll_of_error hnext] at h
      cases h
    | ok next =>
      rw [conjAll_of_ok hnext] at h
      obtain ⟨row, entries', hrow, rfl⟩ := conjTo_map_ok hnext
      obtain ⟨rows, hrows⟩ := ih h
      exact ⟨row :: rows, .cons hrow hrows⟩

theorem conjAll_set {members : List Value} (h : Collects items members) (calls : List (List Value))
    (store : Store)
    : ∃ members', conjAll (.set members) calls store = .ok (.set members') store ∧
        Collects (items ++ calls.flatten) members' := by
  induction calls generalizing items members with
  | nil => exact ⟨members, rfl, by simpa using h⟩
  | cons more calls ih =>
    obtain ⟨next, hnext, hcollects⟩ := conjTo_set h more
    obtain ⟨members', hrest, hcollects'⟩ := ih hcollects
    refine ⟨members', ?_, ?_⟩
    . rw [conjAll_of_ok hnext, hrest]
    . rwa [List.flatten_cons, ← List.append_assoc]

end

/--
However a map is built from pairs and by `conj`, no two of its keys are equal, and what is found
under a key is the value of the last pair that was put in under an equal key, or `nil` if there is
none; `conj` puts in what is given as sequences of two, and nothing else. However a set is built
from items and by `conj`, no two of its members are equal, it contains what some item equals, and if
all items equal themselves it has as many members as there are classes of equal items.
-/
theorem collections_keep
    : (∀ (pairs : List (Value × Value)) (calls : List (List Value)) (store : Store),
        (∀ m store', conjAll (.ofEntries pairs) calls store = .ok m store' →
          ∃ rows, List.Forall₂ (List.Forall₂ IsEntry) calls rows) ∧
        ∀ rows, List.Forall₂ (List.Forall₂ IsEntry) calls rows →
          ∃ entries, conjAll (.ofEntries pairs) calls store = .ok (.map entries) store ∧
            (entries.Pairwise fun a b => (a.1 == b.1) = false) ∧
            ((∀ pair ∈ pairs ++ rows.flatten, pair.1.Distinct) →
              (entries.Pairwise fun a b => (a.1 == b.1) = false ∧ (b.1 == a.1) = false) ∧
              ∀ key, get.call [.map entries, key] store
                = .ok ((Value.findLast? (pairs ++ rows.flatten) key).getD .nil) store)) ∧
      ∀ (items : List Value) (calls : List (List Value)) (store : Store),
        ∃ members, conjAll (.ofMembers items) calls store = .ok (.set members) store ∧
          (members.Pairwise fun a b => (a == b) = false) ∧
          (∀ value, Value.isMember members value = true ↔
            ∃ item ∈ items ++ calls.flatten, (item == value) = true) ∧
          ((∀ item ∈ items ++ calls.flatten, item.Distinct) →
            (members.Pairwise fun a b => (a == b) = false ∧ (b == a) = false) ∧
            ((∀ item ∈ items ++ calls.flatten, (item == item) = true) →
              members.length = (Value.classes (items ++ calls.flatten)).ncard ∧
              count.call [.set members] store = .ok (.int (.ofNat members.length)) store)) := by
  constructor
  . intro pairs calls store
    obtain ⟨entries, hentries, hkeeps⟩ := Keeps.ofEntries pairs
    rw [hentries]
    refine ⟨fun _ _ => conjAll_map_ok, fun rows hrows => ?_⟩
    obtain ⟨entries', hrun, hkeeps'⟩ := conjAll_map hkeeps hrows store
    refine ⟨entries', hrun, hkeeps'.unrepeated, fun hdistinct => ⟨?_, fun key => ?_⟩⟩
    . exact Value.pairwise_apart hkeeps'.unrepeated (hkeeps'.distinct hdistinct)
    . rw [← hkeeps'.found hdistinct]
      rfl
  . intro items calls store
    obtain ⟨members, hmembers, hcollects⟩ := Collects.ofMembers items
    rw [hmembers]
    obtain ⟨members', hrun, hcollects'⟩ := conjAll_set hcollects calls store
    refine ⟨members', hrun, hcollects'.unrepeated, hcollects'.isMember_iff, fun hdistinct => ?_⟩
    exact ⟨hcollects'.apart hdistinct, fun hself => ⟨hcollects'.length_eq hdistinct hself, rfl⟩⟩

theorem collections_keep_sequences
    : (∃ entries, conjAll (.ofEntries [(.vector [.int 1], .int 10), (.list [.int 1], .int 20)])
          [[.vector [.int 2, .int 30], .list [.vector [.int 1], .int 40]]] {}
            = .ok (.map entries) {} ∧
        get.call [.map entries, .list [.int 1]] {} = .ok (.int 40) {}) ∧
      ∃ members, conjAll (.ofMembers [.vector [.int 1], .int 2]) [[.list [.int 1]], []] {}
          = .ok (.set members) {} ∧
        members.length = (Value.classes [.vector [.int 1], .int 2, .list [.int 1]]).ncard := by
  have hint : ∀ n, (Value.int n).Distinct := fun _ =>
    Value.throughout_iff.2 ⟨trivial, List.forall_mem_nil _⟩
  have hvector : (Value.vector [.int 1]).Distinct :=
    Value.throughout_iff.2 ⟨trivial, List.forall_mem_singleton.2 (hint 1)⟩
  have hlist : (Value.list [.int 1]).Distinct :=
    Value.throughout_iff.2 ⟨trivial, List.forall_mem_singleton.2 (hint 1)⟩
  constructor
  . obtain ⟨entries, hrun, -, hfound⟩ := (collections_keep.1
      [(.vector [.int 1], .int 10), (.list [.int 1], .int 20)]
      [[.vector [.int 2, .int 30], .list [.vector [.int 1], .int 40]]] {}).2
      [[(.int 2, .int 30), (.vector [.int 1], .int 40)]] (.cons (.cons rfl (.cons rfl .nil)) .nil)
    refine ⟨entries, hrun, ?_⟩
    rw [(hfound ?_).2]
    . simp [Value.findLast?, BEq.beq, Value.beq, Value.beqItems]
    . simp [hint, hvector, hlist]
  . obtain ⟨members, hrun, -, -, hcount⟩ := collections_keep.2 [.vector [.int 1], .int 2]
      [[.list [.int 1]], []] {}
    refine ⟨members, hrun, ((hcount ?_).2 ?_).1⟩
    . simp [hint, hvector, hlist]
    . simp [BEq.beq, Value.beq, Value.beqItems]

end Primitive

end Resumable
