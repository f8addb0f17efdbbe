import Kernel.Core.Checked
import Kernel.Core.Interleaving
import Kernel.Tasks.Semaphore

/-!
# The read/write lock for tasks

The first reader waits for the semaphore for writing while it holds the mutex around the number of
readers.
-/

namespace Kernel.Tasks

open Core

structure RwLock where
  readerMutex : Semaphore
  readerCount : ℕ
  writeMutex : Semaphore

namespace RwLock

def new : RwLock := ⟨.new 1, 0, .new 1⟩

inductive Call where
  | readLock (kind : WaitKind) (w : Waiting)
  | readCount (kind : WaitKind)
  | readWrite (kind : WaitKind) (w : Waiting)
  | readUnlock (p : Signalling)
  | readFailed (p : Signalling)
  | readGuard
  | readDropLock (w : Waiting)
  | readDropCount
  | readDropSignal (p : Signalling)
  | readDropUnlock (p : Signalling)
  | writeWait (kind : WaitKind) (w : Waiting)
  | writeGuard
  | writeDrop (p : Signalling)
  | finished
  | panicked (reason : Panic)

def Call.afterWait (waiting : Waiting → Call) (acquired failed : Call) : WaitResult → Call
  | .waiting w => waiting w
  | .acquired => acquired
  | .failed => failed

def Call.step (t : ℕ) (l : RwLock) : Call → RwLock × Call
  | readLock kind w =>
    let (s, result) := l.readerMutex.waitStep kind t w
    ({ l with readerMutex := s }, afterWait (readLock kind) (readCount kind) finished result)
  | readCount kind =>
    match checkedAdd l.readerCount 1 with
    | .error reason => (l, panicked reason)
    | .ok count =>
      -- waiting here keeps the mutex, so that no other reader continues
      ({ l with readerCount := count },
        if count = 1 then readWrite kind .load else readUnlock .fetchAdd)
  | readWrite kind w =>
    let (s, result) := l.writeMutex.waitStep kind t w
    ({ l with writeMutex := s },
      afterWait (readWrite kind) (readUnlock .fetchAdd) (readFailed .fetchAdd) result)
  | readUnlock p =>
    let (s, next) := l.readerMutex.signalStep p
    ({ l with readerMutex := s }, next.elim readGuard readUnlock)
  | readFailed p =>
    let (s, next) := l.readerMutex.signalStep p
    ({ l with readerMutex := s }, next.elim finished readFailed)
  | readGuard => (l, readDropLock .load)
  | readDropLock w =>
    let (s, result) := l.readerMutex.waitStep .thread t w
    ({ l with readerMutex := s }, afterWait readDropLock readDropCount finished result)
  | readDropCount =>
    match checkedSub l.readerCount 1 with
    | .error reason => (l, panicked reason)
    | .ok count =>
      ({ l with readerCount := count },
        if count = 0 then readDropSignal .fetchAdd else readDropUnlock .fetchAdd)
  | readDropSignal p =>
    let (s, next) := l.writeMutex.signalStep p
    ({ l with writeMutex := s }, next.elim (readDropUnlock .fetchAdd) readDropSignal)
  | readDropUnlock p =>
    let (s, next) := l.readerMutex.signalStep p
    ({ l with readerMutex := s }, next.elim finished readDropUnlock)
  | writeWait kind w =>
    let (s, result) := l.writeMutex.waitStep kind t w
    ({ l with writeMutex := s }, afterWait (writeWait kind) writeGuard finished result)
  | writeGuard => (l, writeDrop .fetchAdd)
  | writeDrop p =>
    let (s, next) := l.writeMutex.signalStep p
    ({ l with writeMutex := s }, next.elim finished writeDrop)
  | finished => (l, finished)
  | panicked reason => (l, panicked reason)

def Call.Begins (c : Call) : Prop :=
  (∃ kind, kind ≠ .attempt ∧ c = readLock kind .load) ∨ ∃ kind, c = writeWait kind .load

def program : Program RwLock Call where
  start _ c := c.Begins
  step t l c l' c' := (l', c') = c.step t l

def Call.readGuards : Call → ℕ
  | readUnlock _ | readGuard | readDropLock _ => 1
  | _ => 0

def Call.writeGuards : Call → ℕ
  | writeGuard | writeDrop .fetchAdd => 1
  | _ => 0

end RwLock

end Kernel.Tasks
