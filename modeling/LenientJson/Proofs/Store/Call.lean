import LenientJson.Proofs.Store.Action

/-! Calls as data, and runs of calls from an empty store. A run goes on after a call that fails. -/
namespace LenientJson

variable {source : Scalar → Prop}

/-- A call makes a container of a host value, of nothing at all an empty one, or changes a container, or tells the
store of a user object. -/
inductive Call
  | object (mapping : Host)
  | array (values : Host)
  | put (o : Nat) (key value : Host)
  | putOnce (o : Nat) (key value : Host)
  | putOpt (o : Nat) (key value : Host)
  | accumulate (o : Nat) (key value : Host)
  | append (o : Nat) (key value : Host)
  | increment (o : Nat) (key : Host)
  | remove (o : Nat) (key : Host)
  | delete (o : Nat) (key : Host)
  | push (a : Nat) (value : Host)
  | putAt (a : Nat) (index value : Host)
  | welcome (guest : UserObject Host)

namespace Call

def act : Call → Action Unit
  | object mapping => discard (Action.objectOfMapping mapping)
  | array values => discard (Action.arrayOfValues values)
  | put o key value => Action.put o key value
  | putOnce o key value => Action.putOnce o key value
  | putOpt o key value => Action.putOpt o key value
  | accumulate o key value => Action.accumulate o key value
  | append o key value => Action.append o key value
  | increment o key => Action.increment o key
  | remove o key => discard (Action.remove o key)
  | delete o key => Action.delete o key
  | push a value => Action.pushTo a value
  | putAt a index value => Action.putAt a index value
  | welcome guest => Action.welcome guest

/-- The values that a call hands over. -/
def handed : Call → List Host
  | array values => [values.asList]
  | object value | put _ _ value | putOnce _ _ value | putOpt _ _ value | accumulate _ _ value | append _ _ value
  | push _ value | putAt _ _ value => [value]
  | welcome guest => [.user guest]
  | increment .. | remove .. | delete .. => []

def Lists (leaf : Scalar) (call : Call) : Prop := ∃ h ∈ call.handed, h.Lists leaf

/-- The store after a call, whether or not the call succeeds. -/
def after (call : Call) (st : Store) : Store :=
  match call.act st with
  | .ok _ st' | .error _ st' => st'

theorem ends_discard {α : Type} {act : Action α} {P : Store → Prop} {st : Store} (ends : act.Ends (fun _ => P) st) :
    Action.Ends (discard act) (fun _ => P) st := by
  have then_pure : discard act = act >>= fun _ => pure () := by
    funext st
    simp only [discard, Functor.discard, Functor.mapConst, Function.comp, Function.const, EStateM.map, Bind.bind,
      EStateM.bind]
    rfl
  rw [then_pure]
  exact ends.bind fun _ st' holds => .inr ⟨(), st', rfl, holds⟩

theorem keeps_act (call : Call) (st : Store) : call.act.Keeps source (∀ h ∈ call.handed, h.Draws source) st := by
  have handing {value : Host} {act : Action Unit} (keeps : act.Keeps source (value.Draws source) st) :
      act.Keeps source (∀ h ∈ [value], h.Draws source) st :=
    keeps.imp fun draws _ => List.forall_mem_singleton.mp draws
  cases call with
  | object mapping => exact handing (ends_discard (Action.keeps_objectOfMapping mapping st))
  | array values => exact handing (ends_discard (Action.keeps_arrayOfValues values st))
  | put o key value => exact handing (Action.keeps_put o key value st)
  | putOnce o key value => exact handing (Action.keeps_putOnce o key value st)
  | putOpt o key value => exact handing (Action.keeps_putOpt o key value st)
  | accumulate o key value => exact handing (Action.keeps_accumulate o key value st)
  | append o key value => exact handing (Action.keeps_append o key value st)
  | increment o key => exact (Action.keeps_increment o key st).imp fun _ _ => trivial
  | remove o key => exact ends_discard ((Action.keeps_remove o key st).imp fun _ _ => trivial)
  | delete o key => exact (Action.keeps_delete o key st).imp fun _ _ => trivial
  | push a value => exact handing (Action.keeps_pushTo a value st)
  | putAt a index value => exact handing (Action.keeps_putAt a index value st)
  | welcome guest =>
    intro draws sound
    exact ⟨sound.objects, sound.arrays, List.forall_mem_cons.mpr ⟨draws _ List.mem_cons_self, sound.guests⟩⟩

theorem of_error {call : Call} {st st' : Store} {fault : Fault} (failed : call.act st = .error fault st') : st' = st := by
  have keeps : call.act.Keeps (fun _ => True) _ st := keeps_act call st
  exact keeps.of_error failed

end Call

namespace Store

/-- The store after a run of calls. -/
def run (st : Store) (calls : List Call) : Store := calls.foldl (fun st call => call.after st) st

theorem IsSound.after {st : Store} (sound : st.IsSound source) {call : Call}
    (draws : ∀ leaf, call.Lists leaf → source leaf) : (call.after st).IsSound source := by
  have keeps : call.act.Keeps source _ st := call.keeps_act st
  rw [Call.after]
  split
  · next ok => exact keeps.of_ok ok (fun h handed leaf lists => draws leaf ⟨h, handed, lists⟩) sound
  · next failed => exact keeps.of_error failed ▸ sound

theorem IsSound.run {st : Store} (sound : st.IsSound source) (calls : List Call)
    (draws : ∀ call ∈ calls, ∀ leaf, call.Lists leaf → source leaf) : (st.run calls).IsSound source := by
  induction calls generalizing st with
  | nil => exact sound
  | cons call rest ih =>
    obtain ⟨first, others⟩ := List.forall_mem_cons.mp draws
    exact ih (sound.after first) others

end Store
end LenientJson
