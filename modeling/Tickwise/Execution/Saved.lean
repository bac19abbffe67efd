import Tickwise.Codec.Value
import Tickwise.Execution.Basic
set_option autoImplicit false

/-!
# Saved executions

The bytes of an execution between two ticks, and reading them back for a program. What is read back
has to be restored before it goes on.
-/
namespace Tickwise

namespace Codec

/-- The number of a status. Number 1 is kept for an execution inside a tick, which is never saved. -/
def statusTag : Status → Nat
  | .ready => 0
  | .suspended => 2
  | .finished => 3
  | .faulted => 4

def readStatus : Reader Status := do
  match ← readWord with
  | 0 => return .ready
  | 1 => fail .savedWhileRunning
  | 2 => return .suspended
  | 3 => return .finished
  | 4 => return .faulted
  | tag => throw (.unknownTag tag)

def runtimeError (e : RuntimeError) : Written :=
  long e.fault.code >> ulong e.span.start.toNat >> ulong e.span.stop.toNat

def readRuntimeError : Reader RuntimeError := do
  let fault := Fault.ofCode (← readLong)
  let start := UInt32.ofNat (← readULong)
  let stop := UInt32.ofNat (← readULong)
  if stop < start then fail .invertedRange else return ⟨fault, ⟨start, stop⟩⟩

def frameFlags {ν : Type} (f : Frame ν) : Nat := (if f.scope then 1 else 0) + if f.call then 2 else 0

def frame (h : Heap) (f : Frame Variable) : Written :=
  ulong f.node >> word f.state >> integer f.index >> word (frameFlags f) >>
    list (slot h) f.operands >> list (slot h) f.locals

/-- A frame of an instruction below `nodeCount`. It is not live. -/
def readFrame (nodeCount : Nat) : Reader (Frame Tree) := do
  let node ← readULong
  if node ≥ nodeCount then fail .unknownNode
  else
    let state ← readWord
    let index ← readLong
    let flags ← readWord
    if flags > 3 then throw (.unknownTag flags)
    else
      let operands ← readList readTree
      let locals ← readList readTree
      return ⟨node, state, index.toInt, operands, locals, flags % 2 = 1, flags ≥ 2, false⟩

def readFrames (p : Program) : Reader (List (Frame Tree)) := do
  let count ← readLength
  if count > p.env.limits.maxFrames then fail .tooManyFrames
  else readEach (readFrame p.nodeCount) count

end Codec

open Codec in
def Execution.save (x : Execution Variable) (h : Heap) : Written :=
  string x.programId >> word x.entry >> word (statusTag x.status) >>
    option (slot h) x.result >> option runtimeError x.fault >> list (frame h) x.frames

open Codec in
def Program.readExecution (p : Program) : Reader (Execution Tree) := do
  let programId ← readString
  if programId ≠ p.id then throw (.programMismatch p.id programId)
  else
    let entry ← readWord
    let status ← readStatus
    let result ← readOption readTree
    let fault ← readOption readRuntimeError
    let frames ← readFrames p
    return ⟨programId, entry, status, frames, result, fault, false⟩

namespace Heap

def plantFrame (f : Frame Tree) (h : Heap) : Frame Variable × Heap :=
  let (operands, h) := mapThread plant f.operands h
  let (locals, h) := mapThread plant f.locals h
  (⟨f.node, f.state, f.index, operands, locals, f.scope, f.call, f.live⟩, h)

def plantExecution (x : Execution Tree) (h : Heap) : Execution Variable × Heap :=
  let (result, h) : Option Variable × Heap := match x.result with
    | none => (none, h)
    | some t =>
      let (v, h) := plant t h
      (some v, h)
  let (frames, h) := mapThread plantFrame x.frames h
  (⟨x.programId, x.entry, x.status, frames, result, x.fault, x.stop⟩, h)

end Heap

/-- Loads a saved execution of the program; bytes behind it are not looked at. -/
def Program.load (p : Program) (bytes : List UInt8) (h : Heap) :
    Except CodecError (Execution Variable × Heap) :=
  (p.readExecution.run bytes).map fun (x, _) => h.plantExecution x

end Tickwise
