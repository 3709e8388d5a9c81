/-!
# Fingerprints

A number for a text that is the same in every run and on every machine: the 64 bit
FNV-1a hash of its UTF-8 bytes. Named seeds and the seeds of static picks are made
from it.
-/

namespace ContentLang

/-- The fingerprint of the empty text. -/
def fingerprintBasis : UInt64 := 0xcbf29ce484222325

/-- Mixes one byte into a fingerprint. -/
def fingerprintStep (h : UInt64) (b : UInt8) : UInt64 := (h ^^^ b.toUInt64) * 0x100000001b3

/-- **The fingerprint of a text**, its bytes mixed in from left to right. -/
def fingerprint (s : String) : UInt64 :=
  s.toUTF8.toList.foldl fingerprintStep fingerprintBasis

end ContentLang
