import HostedLisp.Lock.Basic
import HostedLisp.Shell.Basic

/-!
# A test of shared locks

- `SharedLock.simpleTest`, `SharedLock.recursiveTest`: what one thread sees of a lock.
- `SharedLock.selfTest`: runs the tests and prints what became of them.
-/

namespace HostedLisp.SharedLock

/-- The lock after asking for it, if it was free. -/
def held? {α : Type} : Attempt α → Option (SharedLock α)
  | .held l => some l
  | .waits .. => none

/-- The only thread of the tests. -/
def tester : String := "MainThread"

/-- Whether a lock has a description. -/
def shows (holders : String) (l : SharedLock String) : Bool :=
  l.text id = "SharedLock(" ++ holders ++ ")"

/-- A lock can be taken and given back, in both ways, and not given back twice. -/
def simpleTest : Bool := Option.isSome do
  let l : SharedLock String := {}
  guard (l.shows "Ex:[] (), Sh:[] ()")
  let owned ← held? (l.acquire true tester)
  guard (owned.shows "Ex:[MainThread:1] (), Sh:[] ()")
  let l ← owned.release? true tester
  guard (l.shows "Ex:[] (), Sh:[] ()")
  let shared ← held? (l.acquireShared tester)
  guard (shared.shows "Ex:[] (), Sh:[MainThread:1] ()")
  let l ← shared.releaseShared? true tester
  guard (l.shows "Ex:[] (), Sh:[] ()")
  guard ((l.release? true tester).isNone && (l.releaseShared? true tester).isNone)

/-- A lock can be taken twice, in both ways. -/
def recursiveTest : Bool := Option.isSome do
  let l : SharedLock String := {}
  let owned ← held? (l.acquire true tester)
  let owned ← held? (owned.acquire true tester)
  guard (owned.shows "Ex:[MainThread:2] (), Sh:[] ()")
  let owned ← owned.release? true tester
  guard (owned.shows "Ex:[MainThread:1] (), Sh:[] ()")
  let l ← owned.release? true tester
  let shared ← held? (l.acquireShared tester)
  let shared ← held? (shared.acquireShared tester)
  guard (shared.shows "Ex:[] (), Sh:[MainThread:2] ()")
  let shared ← shared.releaseShared? true tester
  guard (shared.shows "Ex:[] (), Sh:[MainThread:1] ()")

/-- Run the tests. The third asks whether a thread is alive, which cannot be asked. -/
def selfTest : ShellM Unit := do
  ShellM.print "self-testing module shared_lock.py:\n"
  for (name, passed) in [("simple test: ", simpleTest), ("recursive lock test: ", recursiveTest)] do
    ShellM.print name
    if passed then ShellM.print "ok\n" else fault .assertion
  ShellM.print "same thread shared/exclusive upgrade test: "
  fault .attribute

end HostedLisp.SharedLock
