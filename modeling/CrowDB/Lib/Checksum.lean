import Mathlib.Data.List.Basic

/-!
# Running checksums

A checksum that is computed byte by byte from a seed of zero and can be continued
over further data.
-/
namespace CrowDB.Lib

structure Checksum where
  step : UInt32 → UInt8 → UInt32

namespace Checksum

/-- Continue a checksum over further bytes. -/
def update (C : Checksum) (crc : UInt32) (data : List UInt8) : UInt32 := data.foldl C.step crc

def of (C : Checksum) (data : List UInt8) : UInt32 := C.update 0 data

lemma update_of (C : Checksum) (a b : List UInt8) : C.update (C.of a) b = C.of (a ++ b) := by
  simp [of, update]

end Checksum
end CrowDB.Lib
