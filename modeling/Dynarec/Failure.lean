import Dynarec.Guest.Vector
import Dynarec.Guest.Register
import Dynarec.Text.Hex

/-!
# Failures of the recompiler

Each way in which lowering or dispatch can fail, and its message.
-/

namespace Dynarec

/-- What no host register was free for. -/
inductive Wanted where
  | scalar (reg : GuestReg)
  | element (e : Element)
  | quad (reg : Fin 128)
  | floatTemporary
deriving DecidableEq, Repr, Inhabited

/-- How a wanted value is named in messages. -/
def Wanted.name : Wanted → String
  | scalar reg => reg.name
  | element e => s!"v{e.val}"
  | quad reg => s!"q{reg.val}"
  | floatTemporary => "float temporary"

/-- Why a block is refused. -/
inductive Refusal where
  /-- Its first instruction cannot be fetched. -/
  | unmappedStart
  /-- A jump inside its code leads nowhere. -/
  | unboundLabel
  /-- It is not in the cache after it was put there. -/
  | lostBlock
deriving DecidableEq, Repr, Inhabited

/-- How a refusal is named in messages. -/
def Refusal.name : Refusal → String
  | unmappedStart => "fetch outside guest memory"
  | unboundLabel => "unresolved host label"
  | lostBlock => "lost block"

/-- Why a saved state is rejected. -/
inductive SnapshotError where
  /-- The text is not that of a saved state. -/
  | malformed
  | unsupportedVersion (version : UInt32)
deriving DecidableEq, Repr, Inhabited

/-- How a rejection is named in messages. -/
def SnapshotError.name : SnapshotError → String
  | malformed => "malformed snapshot"
  | unsupportedVersion version => s!"unsupported snapshot version {version.toNat}"

/-- **A failure of the recompiler.** -/
inductive Failure where
  /-- The code of a block does not fit, even into an empty code space. -/
  | codeSpaceExhausted (start : UInt32)
  | registersExhausted (wanted : Wanted)
  | refused (start : UInt32) (refusal : Refusal)
  /-- Native code ran into a word that is no operation. -/
  | badHostCode (offset : Nat)
  | snapshot (error : SnapshotError)
  /-- A code space of the configured size cannot be made. -/
  | codeSpaceSize
deriving DecidableEq, Repr, Inhabited

/-- The message of a failure. -/
def Failure.message : Failure → String
  | codeSpaceExhausted start =>
    s!"code space exhausted while compiling block at {Hex.word start}"
  | registersExhausted wanted => s!"no free host register while binding {wanted.name}"
  | refused start refusal =>
    s!"block at {Hex.word start} cannot be compiled: {refusal.name}"
  | badHostCode offset => s!"undecodable host code at word {offset}"
  | snapshot error => s!"snapshot rejected: {error.name}"
  | codeSpaceSize => "invalid memory size"

/-- The failure concerns one block, which can be interpreted instead. -/
def Failure.isLocal : Failure → Bool
  | registersExhausted _ => true
  | refused _ refusal => refusal ≠ .lostBlock
  | _ => false

end Dynarec
