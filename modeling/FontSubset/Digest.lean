/-!
# Digests

The 64-bit FNV-1a hash: for each byte an exclusive or, then a product modulo 2 ^ 64.
-/

namespace FontSubset.Digest

def basis : UInt64 := 0xcbf29ce484222325
def prime : UInt64 := 0x100000001b3

def fnv1a (bytes : List UInt8) : UInt64 :=
  bytes.foldl (fun hash b => (hash ^^^ b.toUInt64) * prime) basis

example : fnv1a [] = 0xcbf29ce484222325 := by decide

end FontSubset.Digest
