import WardleyMap.Mutation.Apply

/-!
# Handing a mutation to the host

The host keeps the map text. Dispatching a mutation hands it the new text if there is one, exactly once,
and reports what happened on the way as a list of events.
-/

namespace WardleyMap

inductive Level where
  | debug
  | warn
  | error
deriving DecidableEq, Repr

/-- Something that becomes visible outside: a log message, a map text handed to the host, or a message
to the person who edits the map or to the console of the host. -/
inductive Event where
  | log (level : Level) (message : String)
  | commit (text : Text)
  | alert (message : String)
  | console (message : String)
deriving DecidableEq, Repr

def Mismatch.event (mismatch : Mismatch) : Event :=
  .log .warn mismatch.message

namespace Mutation

/-- The events of carrying out a mutation with the given result. -/
def closing (mutation : Mutation) : Except Refusal Outcome → List Event
  | .ok (.changed text) => [.log .debug s!"commit {mutation.summary}", .commit text]
  | .ok .unchanged => [.log .debug s!"no-op {mutation.summary}"]
  | .error refusal =>
    [.log (if refusal.isUserVisible then .warn else .debug)
      s!"{mutation.summary} aborted: {refusal.message}"]

/-- Carries out the mutation and hands over the text that changed. The result says whether there was
one. -/
def dispatch (mutation : Mutation) (text : Text) (config : Config) :
    Except Refusal Bool × List Event :=
  let result := mutation.apply text config
  (result.map fun outcome => outcome != .unchanged,
    (mutation.mismatches text config).map Mismatch.event ++ mutation.closing result)

end Mutation

end WardleyMap
