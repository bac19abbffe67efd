import Tickwise.Execution.Basic
import Tickwise.Instr.Waiting
set_option autoImplicit false

/-!
# Restoring

An execution that was read back is checked against the program before it goes on: each frame must
belong to what the frame before it waits for. Frames that pass are marked live.
-/
namespace Tickwise

inductive RestoreError where
  | frameMismatch (depth : Nat) (expected found : NodeId)
  | badPosition (depth state : Nat) (index : Int)
  | unknownFunction (id : FunctionId)
  /-- This many frames are beneath one that waits for nothing. -/
  | unreachable (count : Nat)
  deriving DecidableEq, Inhabited

def RestoreError.message : RestoreError → String
  | frameMismatch depth expected found =>
    "frame " ++ toString depth ++ " belongs to node " ++ toString found ++ ", expected node " ++
      toString expected
  | badPosition depth state index =>
    "frame " ++ toString depth ++ " has invalid position " ++ toString state ++ ":" ++
      toString index
  | unknownFunction id => "unknown function " ++ toString id
  | unreachable count =>
    toString count ++ " frames were not reachable from the entry function"

namespace Program

variable {ν : Type}

/-- Checks frames, outermost first, that begin with one of `i` at `depth`. Marks those reached. -/
def restoreFrames (p : Program) (i : Instr) (depth : Nat) :
    List (Frame ν) → Option RestoreError × List (Frame ν)
  | [] => (none, [])
  | f :: rest =>
    if f.node ≠ i.id then (some (.frameMismatch depth i.id f.node), f :: rest)
    else
      let live := { f with live := true }
      let badPosition := RestoreError.badPosition depth f.state f.index
      match i.waiting f.state f.index with
      | .idle => (none, live :: rest)
      | .child c =>
        if c.isLeaf then (none, live :: rest)
        else
          let (error, rest) := restoreFrames p c (depth + 1) rest
          (error, live :: rest)
      | .callee id =>
        match p.function? id with
        | none => (some (.unknownFunction id), live :: rest)
        | some g =>
          if rest.head?.any Frame.call then
            let (error, rest) := restoreFrames p g.body (depth + 1) rest
            (error, live :: rest)
          else (some badPosition, live :: rest)
      | .invalid => (some badPosition, live :: rest)

def restore (p : Program) (x : Execution ν) : Option RestoreError × Execution ν :=
  match x.frames with
  | [] => (none, x)
  | f :: _ =>
    match p.function? x.entry with
    | none => (some (.unknownFunction x.entry), x)
    | some g =>
      if !f.call then (some (.badPosition 0 f.state f.index), x)
      else
        let (error, frames) := p.restoreFrames g.body 0 x.frames
        let left := frames.countP fun f => !f.live
        let unreachable := if left = 0 then none else some (RestoreError.unreachable left)
        (error.or unreachable, { x with frames := frames })

end Program
end Tickwise
