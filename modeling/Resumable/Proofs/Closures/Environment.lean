import Resumable.Proofs.Lowering.Graph

/-!
This module contains the environment that the body of a function runs in: parameters are bound to
arguments, the function's own name to the function itself, and all other names to what they stood
for where the function was made.
-/

namespace Resumable

section

variable {α β γ : Type} [DecidableEq α]

theorem lookup_map_snd (g : β → γ) (key : α) (pairs : List (α × β))
    : (pairs.map (Prod.map id g)).lookup key = (pairs.lookup key).map g := by
  induction pairs with
  | nil => rfl
  | cons pair pairs ih =>
    obtain ⟨key', b⟩ := pair
    simp only [List.map_cons, Prod.map_apply, id_eq, List.lookup_cons, ih]
    split <;> rfl

theorem Table.get?.go_eq_lookup (key : α) (entries : List (α × β))
    : get?.go key entries = entries.lookup key := by
  induction entries with
  | nil => rfl
  | cons entry entries ih =>
    obtain ⟨key', a⟩ := entry
    rw [go, List.lookup_cons, ih]
    by_cases hkey : key' = key
    . simp [hkey]
    . rw [if_neg hkey, beq_eq_false_iff_ne.2 (Ne.symm hkey)]

theorem lookup_eq_some_iff_mem {pairs : List (α × β)} (nodup : (pairs.map (·.1)).Nodup) {key : α}
    {b : β}
    : pairs.lookup key = some b ↔ (key, b) ∈ pairs := by
  rw [← Table.get?.go_eq_lookup]
  exact ⟨@Table.mem_of_get? _ _ _ ⟨pairs⟩ _ _, @Table.get?_of_mem _ _ _ ⟨pairs⟩ nodup _ _⟩

variable {keys : List α} {values : List β} {key : α}

theorem lookup_zip_map {g : α → Option β} (h : keys.map g = values.map some) (key : α)
    : (keys.zip values).reverse.lookup key = if key ∈ keys then g key else none := by
  induction keys generalizing values with
  | nil => rfl
  | cons key' keys ih =>
    cases values with
    | nil => cases h
    | cons b values =>
      rw [List.map_cons, List.map_cons, List.cons.injEq] at h
      rw [List.zip_cons_cons, List.reverse_cons, List.lookup_append, ih h.2]
      by_cases hkey : key ∈ keys
      . have hsome : g key ∈ values.map some := h.2 ▸ List.mem_map_of_mem hkey
        obtain ⟨b', _, hb'⟩ := List.mem_map.1 hsome
        simp [hkey, ← hb']
      . by_cases heq : key = key'
        . subst heq
          simp [hkey, h.1]
        . simp [hkey, heq, List.lookup_cons, beq_eq_false_iff_ne.2 heq]

theorem mem_of_lookup_zip {b : β} (h : (keys.zip values).reverse.lookup key = some b)
    : b ∈ values := by
  obtain ⟨_, _, hsplit, _⟩ := List.lookup_eq_some_iff.1 h
  have hmem : (key, b) ∈ keys.zip values := by
    rw [← List.mem_reverse, hsplit]
    simp
  exact (List.of_mem_zip hmem).2

theorem lookup_zip_eq_none_iff (hlength : values.length = keys.length)
    : (keys.zip values).reverse.lookup key = none ↔ key ∉ keys := by
  have hkeys : (keys.zip values).map (·.1) = keys := List.map_fst_zip (Nat.le_of_eq hlength.symm)
  rw [List.lookup_eq_none_iff, ← hkeys, List.mem_map]
  simp only [List.mem_reverse, hkeys, bne_iff_ne, ne_eq, not_exists, not_and, @eq_comm _ key]

end

def Scope.unhidden (scope : Scope) (hidden : List String) : List (String × ValueId) :=
  scope.visible.filter (!hidden.contains ·.1)

namespace Scope

theorem find?_ofParams {params : List String} {name : String}
    : (Scope.ofParams params).find? name = none ↔ name ∉ params := by
  unfold find? ofParams bindAll
  rw [List.append_nil, lookup_zip_eq_none_iff (by simp)]

theorem find?_ofParams_lt {params : List String} {name : String} {id : ValueId}
    (h : (Scope.ofParams params).find? name = some id)
    : id < params.length := by
  rw [find?, ofParams, bindAll, List.append_nil] at h
  simpa using mem_of_lookup_zip h

theorem find?_ofParams_map (params : List String) (values : ValueId → Value) (name : String)
    : ((Scope.ofParams params).find? name).map values
        = (params.zip ((List.range' 0 params.length).map values)).reverse.lookup name := by
  rw [List.zip_map_right, ← List.map_reverse, lookup_map_snd, find?, ofParams, bindAll,
    List.append_nil]

theorem find?_ofParams_congr {params : List String} {values values' : ValueId → Value}
    (h : ∀ id < params.length, values' id = values id) (name : String)
    : ((Scope.ofParams params).find? name).map values'
        = ((Scope.ofParams params).find? name).map values := by
  have hvalues : (List.range' 0 params.length).map values'
      = (List.range' 0 params.length).map values := by
    apply List.map_congr_left
    intro id hid
    exact h id (by simpa using hid)
  rw [find?_ofParams_map, find?_ofParams_map, hvalues]

variable {scope : Scope} {name : String} {id : ValueId}

theorem nodup_visible (scope : Scope) : (scope.visible.map (·.1)).Nodup :=
  Table.nodup_ofList _

theorem mem_visible : (name, id) ∈ scope.visible ↔ scope.find? name = some id := by
  have hget : (Table.ofList scope.locals.reverse).get? name = scope.find? name := by
    rw [Table.get?_ofList, List.reverse_reverse, Table.get?.go_eq_lookup]
    rfl
  rw [← hget]
  exact ⟨Table.get?_of_mem (nodup_visible scope), Table.mem_of_get?⟩

theorem lookup_unhidden (scope : Scope) (hidden : List String) (name : String)
    : (scope.unhidden hidden).reverse.lookup name
        = if name ∈ hidden then none else scope.find? name := by
  have nodup : ((scope.unhidden hidden).reverse.map (·.1)).Nodup := by
    apply ((List.reverse_perm _).map _).nodup_iff.2
    exact (nodup_visible scope).sublist (List.filter_sublist.map _)
  apply Option.ext
  intro id
  rw [lookup_eq_some_iff_mem nodup, List.mem_reverse, unhidden, List.mem_filter, mem_visible]
  by_cases hhidden : name ∈ hidden <;> simp [hhidden]

end Scope

namespace Lambda

variable {lambda : Lambda}

def ownNames (lambda : Lambda) : List String :=
  lambda.name.toList ++ lambda.params

/--
Whether a function is what an `fn` form stands for in a scope, with the results that it captures.
-/
structure Made (options : CompileOptions) (scope : Scope) (args : List Form) (span : Span)
    (lambda : Lambda) (ids : List ValueId) : Prop where
  args : ∃ own items span', args = own ++ .vector items span' :: lambda.body ∧
    own.map Form.symbol? = lambda.name.toList.map some ∧
    items.map Form.symbol? = lambda.params.map some
  captures : lambda.captures = (scope.unhidden lambda.ownNames).map (·.1)
  captured : ids = (scope.unhidden lambda.ownNames).map (·.2)
  aliases : lambda.aliases = options.aliases
  expander : lambda.expander = options.expander
  span : lambda.span = span

def point (lambda : Lambda) : LoopPoint :=
  { header := 1
    tryDepth := 0
    carried := .range' lambda.machineParams.length lambda.params.length }

def bodyScope (lambda : Lambda) : Scope :=
  ((Scope.ofParams lambda.machineParams).bindAll
    (lambda.params.zip lambda.point.carried)).inLoop lambda.point

def environment (lambda : Lambda) (outer : String → Option Value) (self : Value)
    (args : List Value) (name : String) : Option Value :=
  ((lambda.params.zip args).reverse.lookup name).or
    (if lambda.name = some name then some self else outer name)

def own (lambda : Lambda) (self : Value) : List Value :=
  if lambda.name.isSome then [self] else []

theorem length_own (lambda : Lambda) (self : Value)
    : (lambda.own self).length = lambda.name.toList.length := by
  unfold own
  cases lambda.name <;> rfl

theorem lookup_own (lambda : Lambda) (self : Value) (name : String)
    : (lambda.name.toList.zip (lambda.own self)).reverse.lookup name
        = if lambda.name = some name then some self else none := by
  unfold own
  cases lambda.name with
  | none => rfl
  | some name' =>
    by_cases hname : name = name'
    . simp [hname]
    . simp [hname, Ne.symm hname]

theorem Made.lookup_machineParams {options : CompileOptions} {scope : Scope} {forms : List Form}
    {span : Span} {ids : List ValueId} (h : lambda.Made options scope forms span ids)
    (values : ValueId → Value) (self : Value) {args : List Value}
    (hargs : args.length = lambda.params.length) (name : String)
    : (lambda.machineParams.zip (ids.map values ++ lambda.own self ++ args)).reverse.lookup name
        = lambda.environment (fun name => (scope.find? name).map values) self args name := by
  have hcaptured : lambda.captures.zip (ids.map values)
      = (scope.unhidden lambda.ownNames).map (Prod.map id values) := by
    rw [h.captures, h.captured, List.map_map, List.zip_map']
    rfl
  have hlength : lambda.captures.length = (ids.map values).length := by
    simp [h.captures, h.captured]
  have hown := lambda.length_own self
  rw [machineParams, List.append_assoc, List.append_assoc, List.zip_append hlength,
    List.zip_append hown.symm, List.reverse_append, List.reverse_append, List.append_assoc,
    List.lookup_append, List.lookup_append, lookup_own, hcaptured, ← List.map_reverse,
    lookup_map_snd, Scope.lookup_unhidden, environment]
  -- A name of the function's own is not captured, but then it is found before that.
  by_cases hname : lambda.name = some name
  . simp [hname]
  . by_cases hparam : name ∈ lambda.params
    . cases hvalue : (lambda.params.zip args).reverse.lookup name with
      | some value => rfl
      | none => exact absurd hparam ((lookup_zip_eq_none_iff hargs).1 hvalue)
    . have hfree : name ∉ lambda.ownNames := by
        simp [ownNames, hname, hparam]
      simp [hname, hfree]

theorem length_carried (lambda : Lambda) : lambda.point.carried.length = lambda.params.length :=
  List.length_range'

theorem find?_bodyScope (lambda : Lambda) (name : String)
    : lambda.bodyScope.find? name
        = ((lambda.params.zip lambda.point.carried).reverse.lookup name).or
            ((Scope.ofParams lambda.machineParams).find? name) :=
  List.lookup_append

theorem find?_bodyScope_map (lambda : Lambda) (values : ValueId → Value) (name : String)
    : (lambda.bodyScope.find? name).map values
        = ((lambda.params.zip (lambda.point.carried.map values)).reverse.lookup name).or
            (((Scope.ofParams lambda.machineParams).find? name).map values) := by
  rw [find?_bodyScope, List.zip_map_right, ← List.map_reverse, lookup_map_snd, Option.map_or]

theorem find?_bodyScope_copied {values values' : ValueId → Value} {inputs : List ValueId}
    (hreads : lambda.params.map (Scope.ofParams lambda.machineParams).find? = inputs.map some)
    (hcarried : lambda.point.carried.map values' = inputs.map values)
    (hrest : ∀ id < lambda.machineParams.length, values' id = values id) (name : String)
    : (lambda.bodyScope.find? name).map values'
        = ((Scope.ofParams lambda.machineParams).find? name).map values := by
  have hcopies : lambda.params.map (fun name =>
      ((Scope.ofParams lambda.machineParams).find? name).map values)
        = (inputs.map values).map some := by
    have hmapped := congrArg (List.map (Option.map values)) hreads
    rw [List.map_map, List.map_map] at hmapped
    rw [List.map_map]
    exact hmapped
  rw [find?_bodyScope_map, hcarried, lookup_zip_map hcopies, Scope.find?_ofParams_congr hrest]
  split
  . exact Option.or_self
  . exact Option.none_or

def rebound (lambda : Lambda) (values : ValueId → Value) (args : List Value) (name : String) :
    Option Value :=
  ((lambda.params.zip args).reverse.lookup name).or ((lambda.bodyScope.find? name).map values)

theorem find?_bodyScope_rebound {values values' : ValueId → Value} {args : List Value}
    (hargs : args.length = lambda.params.length)
    (hcarried : lambda.point.carried.map values' = args)
    (hrest : ∀ id < lambda.machineParams.length, values' id = values id) (name : String)
    : (lambda.bodyScope.find? name).map values' = lambda.rebound values args name := by
  rw [rebound, find?_bodyScope_map, find?_bodyScope_map, hcarried, Scope.find?_ofParams_congr hrest]
  by_cases hparam : name ∈ lambda.params
  . cases hvalue : (lambda.params.zip args).reverse.lookup name with
    | some value => rfl
    | none => exact absurd hparam ((lookup_zip_eq_none_iff hargs).1 hvalue)
  . have hlength : (lambda.point.carried.map values).length = lambda.params.length := by
      rw [List.length_map, length_carried]
    rw [(lookup_zip_eq_none_iff hlength).2 hparam, Option.none_or]

end Lambda

end Resumable
