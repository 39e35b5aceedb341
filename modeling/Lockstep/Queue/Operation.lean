import Lockstep.Queue.Text

/- What can happen to a queue.

   1. An `Operation` is a call that may change a queue. `perform` gives the error it ends with, if any,
      and the queue after it. What is popped is the first event there was, and a queue without events
      can be popped as well.
   2. `after` runs operations one after the other, whatever each of them ends with. -/
namespace Lockstep.Queue

inductive Operation where
  | push (micros : UInt64) (p : Payload)
  | merge (other : Queue)
  | mergeText (text : String)
  | pop

/-- A change that happens in full or not at all. -/
def orUnchanged (q : Queue) : Except Error Queue → Option Error × Queue
  | .ok q' => (none, q')
  | .error e => (some e, q)

/-- The error that an operation ends with, and the queue after it. -/
def perform (q : Queue) : Operation → Option Error × Queue
  | .push micros p => q.orUnchanged ((q.pushAt micros p).map Prod.snd)
  | .merge other => q.orUnchanged (q.merge other)
  | .mergeText text => q.orUnchanged (q.mergeText text)
  | .pop => (none, q.pop)

/-- The queue after operations. -/
def after (q : Queue) (ops : List Operation) : Queue := ops.foldl (fun q op => (q.perform op).2) q

@[simp] theorem after_nil (q : Queue) : q.after [] = q := rfl

@[simp] theorem after_cons (q : Queue) (op : Operation) (ops : List Operation) :
    q.after (op :: ops) = (q.perform op).2.after ops := rfl

theorem after_append (q : Queue) (ops more : List Operation) :
    q.after (ops ++ more) = (q.after ops).after more :=
  List.foldl_append

end Lockstep.Queue
