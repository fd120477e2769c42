import RecencyCache.Key.Caseless
/-!
# Hashes of keys

A key is hashed as a list of bytes, or as one word. An integer is its eight bytes, lowest first, or
itself as an unsigned word. Text is its UTF-8 bytes and a closing `0xFF`, which no UTF-8 text holds,
or its number of UTF-8 bytes. Keys that count as equal have the same bytes and the same word, so
every scheme gives them the same hash.
-/
namespace RecencyCache

/-- What a hash sees of a key. -/
class KeyBytes (κ : Type) where
  bytes : κ → List UInt8
  word : κ → UInt64

namespace KeyBytes

/-- The eight bytes of a word, lowest first. -/
def ofWord (w : UInt64) : List UInt8 :=
  (List.range 8).map fun i => (w >>> (8 * UInt64.ofNat i)).toUInt8

instance : KeyBytes Int64 where
  bytes k := ofWord k.toUInt64
  word k := k.toUInt64

instance : KeyBytes String where
  bytes k := k.toUTF8.toList ++ [0xFF]
  word k := UInt64.ofNat k.utf8ByteSize

instance : KeyBytes Caseless where
  bytes k := bytes k.folded
  word k := word k.folded

end KeyBytes

/-- A way to make a 64-bit hash of a key. -/
inductive HashScheme where
  /-- The FNV-1a hash of the bytes. -/
  | fnv1a
  /-- The sum of the bytes. -/
  | byteSum
  /-- The key's word. -/
  | identity
  /-- The same word for every key. -/
  | constant (w : UInt64)
  deriving DecidableEq, Repr

namespace HashScheme

/-- The state from which FNV-1a starts. -/
abbrev fnvOffset : UInt64 := 0xcbf29ce484222325

/-- The factor of FNV-1a. -/
abbrev fnvPrime : UInt64 := 0x100000001b3

/-- The FNV-1a hash: for each byte, exclusive or, then multiply. -/
def fnv (bytes : List UInt8) : UInt64 :=
  bytes.foldl (fun state b => (state ^^^ b.toUInt64) * fnvPrime) fnvOffset

/-- The sum of bytes. -/
def sum (bytes : List UInt8) : UInt64 :=
  bytes.foldl (fun state b => state + b.toUInt64) 0

variable {κ : Type} [KeyBytes κ]

/-- The hash of a key. -/
def hash : HashScheme → κ → UInt64
  | fnv1a, k => fnv (KeyBytes.bytes k)
  | byteSum, k => sum (KeyBytes.bytes k)
  | identity, k => KeyBytes.word k
  | constant w, _ => w

theorem hash_congr {a b : κ} (hbytes : KeyBytes.bytes a = KeyBytes.bytes b)
    (hword : KeyBytes.word a = KeyBytes.word b) (scheme : HashScheme) :
    scheme.hash a = scheme.hash b := by
  cases scheme <;> simp only [hash, hbytes, hword]

theorem hash_caseless {a b : Caseless} (h : (a == b) = true) (scheme : HashScheme) :
    scheme.hash a = scheme.hash b := by
  have hfolded := Caseless.beq_iff.1 h
  have hbytes : KeyBytes.bytes a = KeyBytes.bytes b :=
    congrArg (KeyBytes.bytes : String → List UInt8) hfolded
  have hword : KeyBytes.word a = KeyBytes.word b :=
    congrArg (KeyBytes.word : String → UInt64) hfolded
  exact hash_congr hbytes hword scheme

end HashScheme
end RecencyCache
