import Resumable.Proofs.Lowering.Sorted
import Resumable.Proofs.Meaning.Moves
import Resumable.Proofs.Meaning.Reading

/-!
This module contains what it means that control follows an evaluation: it moves on to a place where
the result is at hand, back to the start of a loop that goes round again, or to the end of the run.
-/

namespace Resumable

open Direct

namespace Config

def At (c : Config) (s : Spot) : Prop :=
  c.block = s.block ∧ c.index = s.index

structure Keeps (c : Config) (high : ValueId) (c' : Config) : Prop where
  values : ∀ id < high, c'.values id = c.values id
  globals : c'.world.store.globals = c.world.store.globals

def Gives (c : Config) (t : Spot) (r : Option (List Operand)) (values : List Value) : Prop :=
  c.At t ∧ ∃ operands, r = some operands ∧ List.Forall₂ c.Reads operands values

variable {c c' c'' : Config} {s t : Spot} {high high' : ValueId}

theorem Keeps.refl : c.Keeps high c where
  values _ _ := rfl
  globals := rfl

theorem Keeps.mono (h : c.Keeps high c') (hle : high' ≤ high) : c.Keeps high' c' where
  values id hid := h.values id (Nat.lt_of_lt_of_le hid hle)
  globals := h.globals

theorem Keeps.trans (h : c.Keeps high c') (h' : c'.Keeps high c'') : c.Keeps high c'' where
  values id hid := (h'.values id hid).trans (h.values id hid)
  globals := h'.globals.trans h.globals

theorem update_of_lt {id : ValueId} (hid : high ≤ id) (value : Value)
    : ∀ id' < high, update c.values id value id' = c.values id' := by
  intro id' hid'
  exact if_neg (by lia)

theorem Keeps.write {id : ValueId} (hid : high ≤ id) (value : Value)
    : c.Keeps high (c.write (update c.values id value)) where
  values := update_of_lt hid value
  globals := rfl

theorem At.write (h : c.At s) (values : ValueId → Value) : (c.write values).At (s.skip 1) :=
  ⟨h.1, congrArg (· + 1) h.2⟩

theorem Gives.one {operand : Operand} {value : Value} (hplace : c.At t)
    (hreads : c.Reads operand value)
    : c.Gives t (some [operand]) [value] :=
  ⟨hplace, [operand], rfl, .cons hreads .nil⟩

theorem Gives.reads {operands : List Operand} {values : List Value}
    (h : c.Gives t (some operands) values)
    : List.Forall₂ c.Reads operands values := by
  obtain ⟨_, _, hoperands, hreads⟩ := h
  cases hoperands
  exact hreads

theorem Gives.read {operand : Operand} {value : Value} (h : c.Gives t (some [operand]) [value])
    : c.Reads operand value := by
  obtain ⟨hread, _⟩ := List.forall₂_cons.1 h.reads
  exact hread

theorem Gives.elim {values : List Value} (h : c.Gives t none values) : False := by
  obtain ⟨_, _, hoperands, _⟩ := h
  cases hoperands

end Config

namespace Config

variable {c c' : Config} {high : ValueId}

theorem Keeps.reads (h : c.Keeps high c') {operand : Operand} {value : Value}
    (hbelow : operand.Below high) (hreads : c.Reads operand value)
    : c'.Reads operand value := by
  cases operand with
  | result id => exact (h.values id hbelow).trans hreads
  | literal => exact hreads
  | global name =>
    simp only [Reads, h.globals]
    exact hreads
  | pending => exact hbelow.elim

theorem Keeps.readsAll (h : c.Keeps high c') {operands : List Operand} {values : List Value}
    (hbelow : ∀ operand ∈ operands, operand.Below high)
    (hreads : List.Forall₂ c.Reads operands values)
    : List.Forall₂ c'.Reads operands values := by
  induction hreads with
  | nil => exact .nil
  | cons hread _ ih =>
    rw [List.forall_mem_cons] at hbelow
    exact .cons (h.reads hbelow.1 hread) (ih hbelow.2)

end Config

namespace Plan

variable {plan : Plan} {host : HostFunctions} {c c' : Config} {s : Spot}

theorem Holds.finds {command : Command} {rest : List Command} (h : plan.Holds s (command :: rest))
    (hplace : c.At s)
    : c.Finds plan s.value command := by
  obtain ⟨span, hspan⟩ := h.1
  refine ⟨span, ?_⟩
  rw [hplace.1, hplace.2, hspan]

inductive Follows {α : Type} (plan : Plan) (host : HostFunctions) (loops : List LoopPoint)
    (high : ValueId) (post : Config → α → Prop) (c : Config) (long : Nat) :
    EStateM.Result Signal World α → Prop where
  | ok {c' : Config} {m : Nat} {a : α} {w : World} :
    plan.Moves host c m c' → c.Keeps high c' → post c' a → c'.world = w →
      plan.Follows host loops high post c long (.ok a w)
  | recur {c' : Config} {m : Nat} {point : LoopPoint} {outer : List LoopPoint}
      {values : List Value} {w : World} :
    loops = point :: outer → plan.Moves host c m c' → 0 < m → c'.block = point.header →
      c'.index = 0 → (∀ id < high, id ∉ point.carried → c'.values id = c.values id) →
      point.carried.map c'.values = values → c'.world = w →
        plan.Follows host loops high post c long (.error (.recur values) w)
  | fault {c' : Config} {m : Nat} {value : Value} {w : World} :
    plan.Moves host c m c' → plan.Ends host c' ⟨.fault value, w⟩ →
      plan.Follows host loops high post c long (.error (.fault value) w)
  | waiting {c' : Config} {m : Nat} {w : World} :
    plan.Moves host c m c' → plan.Ends host c' ⟨.waiting, w⟩ →
      plan.Follows host loops high post c long (.error .waiting w)
  | long {w : World} :
    plan.Long host c long →
      plan.Follows host loops high post c long (.error .outOfFuel w)

namespace Follows

variable {α β : Type} {loops : List LoopPoint} {high high' : ValueId} {post : Config → α → Prop}
  {post' : Config → β → Prop} {long long' : Nat} {result : EStateM.Result Signal World α}

theorem after {m : Nat} (h : plan.Follows host loops high' post c' long' result)
    (hmoves : plan.Moves host c m c') (hkeeps : c.Keeps high c') (hhigh : high ≤ high')
    (hlong : long ≤ m + long')
    : plan.Follows host loops high post c long result := by
  cases h with
  | ok hmoves' hkeeps' hpost hworld =>
    exact .ok (hmoves.trans hmoves') (hkeeps.trans (hkeeps'.mono hhigh)) hpost hworld
  | recur hloops hmoves' hpos hblock hindex hrest hvalues hworld =>
    refine .recur hloops (hmoves.trans hmoves') (by lia) hblock hindex ?_ hvalues hworld
    intro id hid hcarried
    exact (hrest id (Nat.lt_of_lt_of_le hid hhigh) hcarried).trans (hkeeps.values id hid)
  | fault hmoves' hends => exact .fault (hmoves.trans hmoves') hends
  | waiting hmoves' hends => exact .waiting (hmoves.trans hmoves') hends
  | long hmore => exact .long ((hmoves.long hmore).mono hlong)

theorem mono (h : plan.Follows host loops high' post c long' result) (hhigh : high ≤ high')
    (hlong : long ≤ long')
    : plan.Follows host loops high post c long result :=
  h.after .refl .refl hhigh (by lia)

theorem imp {post' : Config → α → Prop}
    (h : plan.Follows host loops high post c long result)
    (himp : ∀ c' a, post c' a → post' c' a)
    : plan.Follows host loops high post' c long result := by
  cases h with
  | ok hmoves hkeeps hpost hworld => exact .ok hmoves hkeeps (himp _ _ hpost) hworld
  | recur hloops hmoves hpos hblock hindex hrest hvalues hworld =>
    exact .recur hloops hmoves hpos hblock hindex hrest hvalues hworld
  | fault hmoves hends => exact .fault hmoves hends
  | waiting hmoves hends => exact .waiting hmoves hends
  | long hmore => exact .long hmore

theorem pure {a : α} (h : post c a)
    : plan.Follows host loops high post c long ((Pure.pure a : Eval α) c.world) :=
  .ok .refl .refl h rfl

theorem bind {x : Eval α} {k : α → Eval β}
    (hx : plan.Follows host loops high post c long (x c.world))
    (hk : ∀ c' a, x c.world = .ok a c'.world → c.Keeps high c' → post c' a →
      plan.Follows host loops high post' c' long (k a c'.world))
    : plan.Follows host loops high post' c long ((x >>= k) c.world) := by
  generalize hr : x c.world = r at hx
  cases hx with
  | ok hmoves hkeeps hpost hworld =>
    subst hworld
    rw [bind_of_ok hr]
    exact (hk _ _ hr hkeeps hpost).after hmoves hkeeps (Nat.le_refl _) (by lia)
  | recur hloops hmoves hpos hblock hindex hrest hvalues hworld =>
    rw [bind_of_error hr]
    exact .recur hloops hmoves hpos hblock hindex hrest hvalues hworld
  | fault hmoves hends =>
    rw [bind_of_error hr]
    exact .fault hmoves hends
  | waiting hmoves hends =>
    rw [bind_of_error hr]
    exact .waiting hmoves hends
  | long hmore =>
    rw [bind_of_error hr]
    exact .long hmore

theorem andThen {x : Eval α} {post' : Config → α → Prop}
    (hx : plan.Follows host loops high post c long (x c.world))
    (hk : ∀ c' a, x c.world = .ok a c'.world → post c' a →
      plan.Follows host loops high post' c' long (.ok a c'.world))
    : plan.Follows host loops high post' c long (x c.world) := by
  rw [← bind_pure x]
  exact hx.bind fun c' a hok _ hpost => hk c' a hok hpost

theorem stop {t : Spot} {x : Eval α} {k : α → Eval β} {values : α → List Value}
    (hx : plan.Follows host loops high (fun c' a => c'.Gives t none (values a)) c long
      (x c.world))
    : plan.Follows host loops high post' c long ((x >>= k) c.world) :=
  hx.bind fun _ _ _ _ hgives => hgives.elim.elim

variable {t : Spot}

theorem const {operand : Operand} {value : Value}
    (hholds : plan.Holds s [.effect (.const operand)]) (hplace : c.At s)
    (hreads : c.Reads operand value)
    : plan.Follows host loops s.value
        (fun c' a => c'.Gives (s.skip 1) (some [.result s.value]) [a]) c long
        (.ok value c.world) := by
  refine .ok (.does (.const (hholds.finds hplace) hreads) .refl) ?_ ?_ rfl
  . exact .write (Nat.le_refl _) value
  . exact .one (hplace.write _) (if_pos rfl)

theorem receive (hholds : plan.Holds s [.receive]) (hplace : c.At s) (hhigh : high ≤ s.value)
    : plan.Follows host loops high
        (fun c' a => c'.Gives (s.skip 1) (some [.result s.value]) [a]) c long
        (.ok c.pending c.world) :=
  (const hholds hplace rfl).mono hhigh (Nat.le_refl _)

theorem handOver {operand : Operand} {value : Value} {target : BlockId}
    (hholds : plan.Holds s [.handOver operand target]) (hplace : c.At s)
    (hreads : c.Reads operand value)
    : plan.Follows host loops high (fun c' a => c'.At (s.goTo target) ∧ c'.pending = a) c
        long (.ok value c.world) :=
  .ok (.jumps (.handOver (hholds.finds hplace) hreads) .refl) ⟨fun _ _ => rfl, rfl⟩
    ⟨⟨rfl, rfl⟩, rfl⟩ rfl

theorem call (hhost : host.Native) {callee : Operand} {args : List Operand} {f : Value}
    {values : List Value} (hholds : plan.Holds s [.effect (.call callee args)]) (hplace : c.At s)
    (hcallee : c.Reads callee f) (hargs : List.Forall₂ c.Reads args values) (hf : f.Native)
    (hvalues : ∀ value ∈ values, value.Native) (hstore : c.world.store.Native)
    : plan.Follows host loops s.value
        (fun c' a => c'.Gives (s.skip 1) (some [.result s.value]) [a]) c long
        (onStore (Direct.call host f values) c.world) := by
  have hfinds := hholds.finds hplace
  have hpasses := @Run.passes_call { functions := host } hhost (fun _ p => .error .outOfFuel p) f
    values hf hvalues c.world.store ⟨hstore.fields, hstore.globals⟩
  unfold onStore
  cases hcall : Direct.call host f values c.world.store with
  | ok value store =>
    rw [Direct.call] at hcall
    rw [hcall] at hpasses
    refine .ok (.does (.call hfinds hcallee hargs hf hcall) .refl) ?_ ?_ rfl
    . exact ⟨Config.update_of_lt (Nat.le_refl _) value, hpasses.2.2⟩
    . exact .one (hplace.write (update c.values s.value value)) (if_pos rfl)
  | error stop store =>
    rw [Direct.call] at hcall
    rw [hcall] at hpasses
    obtain ⟨⟨thrown, rfl, -⟩, -⟩ := hpasses
    exact .fault .refl (.call hfinds hcallee hargs hf hcall)

theorem again {body : List Value → Eval Value} {point : LoopPoint}
    {post : Config → Value → Prop} {start : List Value → Config → Prop}
    (hround : ∀ values c, start values c →
      plan.Follows host (point :: loops) high' post c long (body values c.world))
    (hback : ∀ values c c', start values c →
      body values c.world = .error (.recur (point.carried.map c'.values)) c'.world →
      c'.block = point.header → c'.index = 0 →
      (∀ id < high', id ∉ point.carried → c'.values id = c.values id) →
        c'.world.store.globals = c.world.store.globals ∧ start (point.carried.map c'.values) c')
    (hcarried : ∀ id ∈ point.carried, high ≤ id) (hhigh : high ≤ high') (rounds : Nat)
    {values : List Value} (hstart : start values c)
    : plan.Follows host loops high post c (min rounds long)
        (Direct.again body rounds values c.world) := by
  induction rounds generalizing c values with
  | zero => exact .long ((long_zero c).mono (Nat.min_le_left _ _))
  | succ rounds ih =>
    have hbody := hround values c hstart
    unfold Direct.again
    generalize hr : body values c.world = r at hbody
    cases hbody with
    | ok hmoves hkeeps hpost hworld => exact .ok hmoves (hkeeps.mono hhigh) hpost hworld
    | recur hloops hmoves hpos hblock hindex hrest hvalues hworld =>
      cases hloops
      subst hvalues hworld
      obtain ⟨hglobals, hagain⟩ := hback values c _ hstart hr hblock hindex hrest
      refine (ih hagain).after hmoves ⟨?_, hglobals⟩ (Nat.le_refl _) (by lia)
      intro id hid
      exact hrest id (Nat.lt_of_lt_of_le hid hhigh) fun hmem => by
        have := hcarried id hmem
        lia
    | fault hmoves hends => exact .fault hmoves hends
    | waiting hmoves hends => exact .waiting hmoves hends
    | long hmore => exact .long (hmore.mono (Nat.min_le_right _ _))

end Follows

theorem Holds.copies {operands : List Operand} {values : List Value} {high : ValueId}
    (h : plan.Holds s (operands.map fun operand => .effect (.const operand))) (hplace : c.At s)
    (hhigh : high ≤ s.value) (hbelow : ∀ operand ∈ operands, operand.Below high)
    (hreads : List.Forall₂ c.Reads operands values)
    : ∃ c', plan.Moves host c 0 c' ∧ c'.At (s.skip operands.length) ∧
        c.Keeps s.value c' ∧ (List.range' s.value operands.length).map c'.values = values ∧
        c'.world = c.world := by
  induction operands generalizing s c values with
  | nil =>
    cases hreads
    exact ⟨c, .refl, hplace, .refl, rfl, rfl⟩
  | cons operand operands ih =>
    cases hreads with
    | @cons _ value _ values hread hreads =>
    rw [List.forall_mem_cons] at hbelow
    have hkeeps : c.Keeps s.value (c.write (update c.values s.value value)) :=
      .write (Nat.le_refl _) value
    obtain ⟨c', hmoves, hplace', hkeeps', hvalues, hworld⟩ := ih h.2 (hplace.write _)
      (Nat.le_succ_of_le hhigh) hbelow.2 ((hkeeps.mono hhigh).readsAll hbelow.2 hreads)
    refine ⟨c', .does (.const (h.finds hplace) hread) hmoves, ?_, ?_, ?_, hworld⟩
    . exact ⟨hplace'.1, hplace'.2.trans (Nat.add_right_comm ..)⟩
    . exact hkeeps.trans (hkeeps'.mono (Nat.le_succ _))
    . rw [List.length_cons, List.range'_succ, List.map_cons, ← hvalues,
        hkeeps'.values s.value (Nat.lt_succ_self _)]
      exact congrArg (· :: _) (if_pos rfl)

end Plan

namespace Scope

variable {scope : Scope} {values values' : ValueId → Value}

def env (scope : Scope) (values : ValueId → Value) : Env :=
  scope.locals.map fun entry => (entry.1, values entry.2)

theorem names_env : (scope.env values).map (·.1) = scope.names := by
  simp [env, names]

theorem lookup_env {name : String} {id : ValueId} (h : scope.find? name = some id)
    : (scope.env values).lookup name = some (values id) := by
  unfold find? at h
  unfold env
  generalize scope.locals = locals at h
  induction locals with
  | nil => cases h
  | cons entry locals ih =>
    rw [List.map_cons, List.lookup_cons]
    rw [List.lookup_cons] at h
    split at h
    . cases h
      rfl
    . exact ih h

theorem env_congr (h : ∀ id, scope.binds id = true → values' id = values id)
    : scope.env values' = scope.env values := by
  unfold env
  apply List.map_congr_left
  intro entry hentry
  rw [h entry.2 (binds_of_mem hentry)]

theorem names_inLoop {names : List String} {point : LoopPoint}
    (h : names.length = point.carried.length)
    : ((scope.bindAll (names.zip point.carried)).inLoop point).names
        = names.reverse ++ scope.names := by
  simp only [Scope.names, inLoop, Scope.bindAll, List.map_append, List.map_reverse]
  rw [List.map_fst_zip (Nat.le_of_eq h)]

theorem env_inLoop (names : List String) (point : LoopPoint)
    : ((scope.bindAll (names.zip point.carried)).inLoop point).env values
        = Direct.bindAll (scope.env values) names (point.carried.map values) := by
  simp only [env, inLoop, Scope.bindAll, Direct.bindAll, List.map_append, List.map_reverse,
    List.zip_map_right]
  rfl

end Scope

structure Config.Ready (globals : Table String Value) (scope : Scope) (env : Env) (c : Config) :
    Prop where
  values : env = scope.env c.values
  native : NativeEnv env
  world : c.world.Native
  globals : c.world.store.globals = globals

namespace Config.Ready

variable {α : Type} {globals : Table String Value} {scope : Scope} {env : Env} {c c' : Config}
  {high : ValueId} {x : Eval α} {post : α → Prop}

theorem next (h : c.Ready globals scope env)
    (hvalues : ∀ id, scope.binds id = true → c'.values id = c.values id)
    (hworld : c'.world.Native) (hglobals : c'.world.store.globals = c.world.store.globals)
    : c'.Ready globals scope env where
  values := by
    rw [h.values]
    exact (Scope.env_congr hvalues).symm
  native := h.native
  world := hworld
  globals := hglobals.trans h.globals

theorem past (h : c.Ready globals scope env) (hsorted : scope.Sorted high) (htame : Tame post x)
    {a : α} (hok : x c.world = .ok a c'.world) (hkeeps : c.Keeps high c')
    : post a ∧ c'.Ready globals scope env := by
  have hx := htame c.world h.world
  rw [hok] at hx
  obtain ⟨hpost, hworld, hglobals⟩ := hx
  exact ⟨hpost, h.next (fun id hid => hkeeps.values id (hsorted.locals id hid)) hworld hglobals⟩

theorem round (h : c.Ready globals scope env) (htame : Tame post x) {again : List Value}
    (hrecur : x c.world = .error (.recur again) c'.world)
    (hvalues : ∀ id, scope.binds id = true → c'.values id = c.values id)
    : (∀ value ∈ again, value.Native) ∧ c'.world.store.globals = c.world.store.globals ∧
        c'.Ready globals scope env := by
  have hx := htame c.world h.world
  rw [hrecur] at hx
  obtain ⟨hnative, hworld, hglobals⟩ := hx
  exact ⟨hnative, hglobals, h.next hvalues hworld hglobals⟩

theorem inLoop (h : c.Ready globals scope env) (names : List String) {point : LoopPoint}
    {values : List Value} (hvalues : point.carried.map c.values = values)
    (hnative : ∀ value ∈ values, value.Native)
    : c.Ready globals ((scope.bindAll (names.zip point.carried)).inLoop point)
        (bindAll env names values) where
  values := by rw [Scope.env_inLoop, ← h.values, hvalues]
  native := h.native.bindAll names hnative
  world := h.world
  globals := h.globals

theorem bind (h : c.Ready globals scope env) (name : String) {id : ValueId} {value : Value}
    (hid : c.values id = value) (hvalue : value.Native)
    : c.Ready globals (scope.bind name id) ((name, value) :: env) where
  values := by
    rw [h.values, ← hid]
    rfl
  native := List.forall_mem_cons.2 ⟨hvalue, h.native⟩
  world := h.world
  globals := h.globals

end Config.Ready

end Resumable
