import Resumable.Proofs.Lowering.Graph
import Resumable.Proofs.Lowering.Restored

/-!
This module contains the proof that names stand for different results at every point of lowering:
it makes no difference to look at the names in scope whenever lowering gets to a form, and again
when it is done with the form.
-/

namespace Resumable

namespace Lower

def inspect (alarm : CompileError) : Lower Unit := do
  let builder := (← get).builder
  if (builder.scope.locals.map (·.2)).Nodup ∧
      ∀ entry ∈ builder.scope.locals, entry.2 < builder.nextValue then
    return ()
  else throw alarm

def inspected (alarm : CompileError) (lower : Form → Lower Lowered) (form : Form) :
    Lower Lowered := do
  inspect alarm
  let lowered ← lower form
  inspect alarm
  return lowered

def inspectedForm (alarm : CompileError) (options : CompileOptions) : Nat → Form → Lower Lowered
  | 0, form => throw (.expansion "expansion did not terminate" form.span)
  | depth + 1, surface => do
    let core ← expand options.expander surface
    coreForm options (inspected alarm (inspectedForm alarm options depth)) core

def inspectedProgram (alarm : CompileError) (options : CompileOptions) (source : Form) :
    Lower Unit := do
  addParams options.params
  goTo (← newBlock)
  match ← inspected alarm (inspectedForm alarm options (options.expander.depth source)) source with
  | .value operand => finishWith options operand source.span
  | .terminated => return ()

open Draft

variable {d : Draft} {lower lower' : Form → Lower Lowered}

theorem inspect_quiet (alarm : CompileError) (h : d.Apart) : inspect alarm d = .ok () d := by
  have hinspect : inspect alarm d
      = (if (d.scope.locals.map (·.2)).Nodup ∧ ∀ entry ∈ d.scope.locals, entry.2 < d.spot.value
          then Pure.pure () else throw alarm : Lower Unit) d := rfl
  rw [hinspect, if_pos ⟨h.nodup, h.given⟩]
  rfl

theorem allGo_inspected (alarm : CompileError) (hlower : AllGo True lower lower')
    : AllGo True lower (inspected alarm lower') := by
  intro form free d h
  have hstart : inspected alarm lower' form d
      = (lower' form >>= fun lowered => inspect alarm >>= fun _ => Pure.pure lowered) d :=
    bind_of_ok (inspect_quiet alarm (h trivial))
  cases hlower form free d h with
  | ok hx hy hleads hpost =>
    have hend := inspect_quiet alarm (hleads.apart trivial)
    exact .ok hx (hstart.trans ((bind_of_ok hy).trans (bind_of_ok hend))) hleads hpost
  | error hx hy hscope => exact .error hx (hstart.trans (bind_of_error hy)) hscope

theorem allGo_inspectedForm (alarm : CompileError) (options : CompileOptions) (depth : Nat)
    : AllGo True (form options depth) (inspectedForm alarm options depth) := by
  induction depth with
  | zero => exact fun _ _ _ _ => .throw _
  | succ depth ih =>
    intro surface free d h
    refine .bind (goes_expand options.expander surface h) fun core e he _ => ?_
    exact goes_coreForm options (allGo_inspected alarm ih) core he.apart

theorem start_apart (params : List String) : (Draft.start params).Apart where
  nodup := by
    have hscope : (Draft.start params).scope = .ofParams params := rfl
    rw [hscope, Scope.ofParams, Scope.bindAll, List.append_nil, List.map_reverse,
      List.map_snd_zip (by simp), List.Nodup, List.pairwise_reverse]
    exact List.Pairwise.imp Ne.symm List.nodup_range'
  given entry hentry := by
    have hmem : entry ∈ (params.zip (.range' 0 params.length)).reverse ++ [] := hentry
    rw [List.append_nil, List.mem_reverse] at hmem
    have := List.mem_range'_1.1 (List.of_mem_zip hmem).2
    change entry.2 < params.length
    lia

theorem inspectedProgram_eq (alarm : CompileError) (options : CompileOptions) (source : Form)
    : inspectedProgram alarm options source {} = program options source {} := by
  obtain ⟨d, hparams⟩ := addParams_total options.params {}
  have hopened : newBlock d = .ok d.spot.fresh d.opened := rfl
  have hat : goTo d.spot.fresh d.opened = .ok () (.start options.params) :=
    congrArg (EStateM.Result.ok ()) (start_of_params hparams)
  unfold inspectedProgram program
  rw [bind_of_ok hparams, bind_of_ok hparams, bind_of_ok hopened, bind_of_ok hopened,
    bind_of_ok hat, bind_of_ok hat]
  have hforms := allGo_inspectedForm alarm options (options.expander.depth source)
  cases allGo_inspected alarm hforms source True _ fun _ => start_apart options.params with
  | @ok lowered _ hx hy =>
    refine (bind_of_ok hy).trans (Eq.trans ?_ (bind_of_ok hx).symm)
    cases lowered <;> rfl
  | error hx hy => exact (bind_of_error hy).trans (bind_of_error hx).symm

end Lower

end Resumable
