import MultithreadMayhem.Pthread.Monitor

/-!
# The readers-writers lock

`rw_lock.c` statement by statement. The users of the lock are programs whose
sections are not nested: the control point of a user records the section it is
in, and the type of its next call depends on that section.
-/

namespace MultithreadMayhem.RwLock

open Foundation Pthread

inductive Cv
  | readCv
  | writeCv
  deriving DecidableEq, Repr

inductive Section
  | reader
  | writer
  deriving DecidableEq, Repr

/-- What a program does next, given the section it is in. -/
inductive Call (D K : Type) : Option Section → Type
  | readerLock (k : K) : Call D K none
  | readerUnlock (k : K) : Call D K (some .reader)
  | writerLock (k : K) : Call D K none
  | writerUnlock (k : K) : Call D K (some .writer)
  /-- A statement of the program that does not use the lock. -/
  | step {h : Option Section} (d : D) (k : K) : Call D K h
  | finish : Call D K none

abbrev Client (T D K : Type) := T → (h : Option Section) → K → D → Call D K h

structure Shared (D : Type) where
  activeReaders : Int
  activeWriters : Int
  waitingWriters : Int
  data : D

inductive Pc (K : Type)
  | client (h : Option Section) (k : K)
  | readerLockLock (k : K)
  | readerLockTest (k : K)
  | readerLockCount (k : K)
  | readerLockUnlock (k : K)
  | readerUnlockLock (k : K)
  | readerUnlockCount (k : K)
  | readerUnlockTest (k : K)
  | readerUnlockSignal (k : K)
  | readerUnlockUnlock (k : K)
  | writerLockLock (k : K)
  | writerLockRegister (k : K)
  | writerLockTest (k : K)
  | writerLockDeregister (k : K)
  | writerLockCount (k : K)
  | writerLockUnlock (k : K)
  | writerUnlockLock (k : K)
  | writerUnlockCount (k : K)
  | writerUnlockTest (k : K)
  | writerUnlockSignal (k : K)
  | writerUnlockBroadcast (k : K)
  | writerUnlockUnlock (k : K)

variable {T D K : Type}

def rwInit (data : D) : Shared D where
  activeReaders := 0
  activeWriters := 0
  waitingWriters := 0
  data := data

def readerLock (s : Shared D) : Pc K → Act (Shared D) Cv (Pc K)
  | .readerLockLock k => .lock (.readerLockTest k)
  | .readerLockTest k =>
    if s.activeWriters > 0 ∨ s.waitingWriters > 0 then .wait .readCv (.readerLockTest k)
    else .exec s (.readerLockCount k)
  | .readerLockCount k =>
    .exec { s with activeReaders := s.activeReaders + 1 } (.readerLockUnlock k)
  | .readerLockUnlock k => .unlock (.client (some .reader) k)
  | _ => .block

def readerUnlock (s : Shared D) : Pc K → Act (Shared D) Cv (Pc K)
  | .readerUnlockLock k => .lock (.readerUnlockCount k)
  | .readerUnlockCount k =>
    .exec { s with activeReaders := s.activeReaders - 1 } (.readerUnlockTest k)
  | .readerUnlockTest k =>
    .exec s (if s.activeReaders = 0 then .readerUnlockSignal k else .readerUnlockUnlock k)
  | .readerUnlockSignal k => .signal .writeCv (.readerUnlockUnlock k)
  | .readerUnlockUnlock k => .unlock (.client none k)
  | _ => .block

def writerLock (s : Shared D) : Pc K → Act (Shared D) Cv (Pc K)
  | .writerLockLock k => .lock (.writerLockRegister k)
  | .writerLockRegister k =>
    .exec { s with waitingWriters := s.waitingWriters + 1 } (.writerLockTest k)
  | .writerLockTest k =>
    if s.activeReaders > 0 ∨ s.activeWriters > 0 then .wait .writeCv (.writerLockTest k)
    else .exec s (.writerLockDeregister k)
  | .writerLockDeregister k =>
    .exec { s with waitingWriters := s.waitingWriters - 1 } (.writerLockCount k)
  | .writerLockCount k =>
    .exec { s with activeWriters := s.activeWriters + 1 } (.writerLockUnlock k)
  | .writerLockUnlock k => .unlock (.client (some .writer) k)
  | _ => .block

def writerUnlock (s : Shared D) : Pc K → Act (Shared D) Cv (Pc K)
  | .writerUnlockLock k => .lock (.writerUnlockCount k)
  | .writerUnlockCount k =>
    .exec { s with activeWriters := s.activeWriters - 1 } (.writerUnlockTest k)
  | .writerUnlockTest k =>
    .exec s (if s.waitingWriters > 0 then .writerUnlockSignal k else .writerUnlockBroadcast k)
  | .writerUnlockSignal k => .signal .writeCv (.writerUnlockUnlock k)
  | .writerUnlockBroadcast k => .broadcast .readCv (.writerUnlockUnlock k)
  | .writerUnlockUnlock k => .unlock (.client none k)
  | _ => .block

def Call.act (s : Shared D) {h : Option Section} : Call D K h → Act (Shared D) Cv (Pc K)
  | .readerLock k => .exec s (.readerLockLock k)
  | .readerUnlock k => .exec s (.readerUnlockLock k)
  | .writerLock k => .exec s (.writerLockLock k)
  | .writerUnlock k => .exec s (.writerUnlockLock k)
  | .step d k => .exec { s with data := d } (.client h k)
  | .finish => .exit

def code (client : Client T D K) (t : T) (pc : Pc K) (s : Shared D) :
    Act (Shared D) Cv (Pc K) :=
  match pc with
  | .client h k => (client t h k s.data).act s
  | .readerLockLock _ | .readerLockTest _ | .readerLockCount _ | .readerLockUnlock _ =>
    readerLock s pc
  | .readerUnlockLock _ | .readerUnlockCount _ | .readerUnlockTest _ | .readerUnlockSignal _
  | .readerUnlockUnlock _ => readerUnlock s pc
  | .writerLockLock _ | .writerLockRegister _ | .writerLockTest _ | .writerLockDeregister _
  | .writerLockCount _ | .writerLockUnlock _ => writerLock s pc
  | _ => writerUnlock s pc

def rwSystem [Fintype T] [DecidableEq T] (client : Client T D K) (data : D) (start : T → K) :
    System (State T (Shared D) Cv (Pc K)) (Label T) :=
  Pthread.system (code client) (rwInit data) fun t => .client none (start t)

/-- Threads that run through finite sequences of sections and do nothing else. -/
def sections (T : Type) : Client T Unit (List Section)
  | _, none, .reader :: rest, _ => .readerLock rest
  | _, none, .writer :: rest, _ => .writerLock rest
  | _, none, [], _ => .finish
  | _, some .reader, rest, _ => .readerUnlock rest
  | _, some .writer, rest, _ => .writerUnlock rest

def Pc.inside : Pc K → Bool
  | .client _ _ | .readerLockLock _ | .readerUnlockLock _ | .writerLockLock _
  | .writerUnlockLock _ => false
  | _ => true

theorem code_disciplined (client : Client T D K) : Disciplined (code client) Pc.inside := by
  intro t pc s
  cases pc with
  | client h k =>
    simp only [code]
    cases client t h k s.data <;> rfl
  | readerLockTest k =>
    by_cases h : s.activeWriters > 0 ∨ s.waitingWriters > 0 <;>
      simp [code, readerLock, h, Act.Respects, Pc.inside]
  | readerUnlockTest k =>
    by_cases h : s.activeReaders = 0 <;> simp [code, readerUnlock, h, Act.Respects, Pc.inside]
  | writerLockTest k =>
    by_cases h : s.activeReaders > 0 ∨ s.activeWriters > 0 <;>
      simp [code, writerLock, h, Act.Respects, Pc.inside]
  | writerUnlockTest k =>
    by_cases h : s.waitingWriters > 0 <;> simp [code, writerUnlock, h, Act.Respects, Pc.inside]
  | _ => simp [code, readerLock, readerUnlock, writerLock, writerUnlock, Act.Respects, Pc.inside]

end MultithreadMayhem.RwLock
