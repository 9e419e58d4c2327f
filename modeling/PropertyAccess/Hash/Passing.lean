/-! A hash for keys that are unique words already: a word written is the hash.
Bytes are shifted in from the last to the first, so that up to eight of them
are read as a little-endian number. -/

namespace PropertyAccess

structure PassingHash where
  state : UInt64
  deriving DecidableEq

namespace PassingHash

def start : PassingHash := ⟨0⟩

def rotateByte (x : UInt64) : UInt64 := (x <<< 8) ||| (x >>> 56)

def writeBytes (h : PassingHash) (bytes : List UInt8) : PassingHash :=
  ⟨bytes.reverse.foldl (fun x b => rotateByte x + b.toUInt64) h.state⟩

def writeWord (_ : PassingHash) (w : UInt64) : PassingHash := ⟨w⟩

def finish (h : PassingHash) : UInt64 := h.state

@[simp] theorem finish_writeWord (h : PassingHash) (w : UInt64) : (h.writeWord w).finish = w := rfl

end PassingHash

end PropertyAccess
