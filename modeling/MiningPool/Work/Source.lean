import MiningPool.Digest.Sha256
import MiningPool.Fault
import MiningPool.Work.Job

/-!
# Work sources

A source hands out work for numbered jobs and judges shares; both may fail. The pool never checks a share
itself. `Source.derived` is a source that makes its work up from the job's number and takes every share.
-/

namespace MiningPool

/-- Where work comes from and shares go. -/
structure Source where
  /-- The work of the job with a number. -/
  fetch : Nat → Except Fault Template
  /-- Whether a share is accepted. -/
  judge : Share → Except Fault Bool

namespace Source

/-- The number of hexadecimal digits of a header. -/
def headerLength : Nat := 224

/-- The target of derived work. -/
def derivedTarget : String := "00000000000000ffff" ++ String.ofList (List.replicate 46 '0')

/-- The height of derived work before the first job. -/
def baseHeight : Nat := 1000000

/-- The hexadecimal digest of `header_` and the job's id, repeated to the length of a header. -/
def derivedHeader (seq : Nat) : String :=
  let hex := (Digest.Sha256.digest (Utf8.encodeText ("header_" ++ jobId seq))).flatMap
    fun w => Text.zeroPadded 8 (Nat.toDigits 16 w.toNat)
  String.ofList ((List.replicate (headerLength / 64 + 1) hex).flatten.take headerLength)

def derivedTemplate (seq : Nat) : Template := ⟨derivedHeader seq, derivedTarget, baseHeight + seq⟩

def derived : Source where
  fetch seq := .ok (derivedTemplate seq)
  judge _ := .ok true

end Source
end MiningPool
