/-!
A 64-bit fingerprint of a text: the xxHash64 value of its UTF-8 bytes under a fixed seed, so that it
is the same in every process. All arithmetic is on 64-bit words and wraps.
-/

namespace GraphPlan.Fingerprint

def seed : UInt64 := 0x517cc1b727220a95

def prime1 : UInt64 := 0x9E3779B185EBCA87
def prime2 : UInt64 := 0xC2B2AE3D27D4EB4F
def prime3 : UInt64 := 0x165667B19E3779F9
def prime4 : UInt64 := 0x85EBCA77C2B2AE63
def prime5 : UInt64 := 0x27D4EB2F165667C5

def rotateLeft (x count : UInt64) : UInt64 := (x <<< count) ||| (x >>> (64 - count))

/-- Little-endian value of the given bytes. -/
def word : List UInt8 → UInt64
  | [] => 0
  | b :: bs => b.toUInt64 ||| (word bs <<< 8)

def round (acc lane : UInt64) : UInt64 := rotateLeft (acc + lane * prime2) 31 * prime1

def mergeRound (hash acc : UInt64) : UInt64 := (hash ^^^ round 0 acc) * prime1 + prime4

/-- The four accumulators of the striped part. -/
structure Lanes where
  first : UInt64
  second : UInt64
  third : UInt64
  fourth : UInt64

def Lanes.init : Lanes := ⟨seed + prime1 + prime2, seed + prime2, seed, seed - prime1⟩

/-- Feed one stripe of 32 bytes, eight to each accumulator. -/
def Lanes.feed (lanes : Lanes) (bytes : List UInt8) : Lanes where
  first := round lanes.first (word (bytes.take 8))
  second := round lanes.second (word ((bytes.drop 8).take 8))
  third := round lanes.third (word ((bytes.drop 16).take 8))
  fourth := round lanes.fourth (word ((bytes.drop 24).take 8))

def Lanes.merge (l : Lanes) : UInt64 :=
  let mixed := rotateLeft l.first 1 + rotateLeft l.second 7 + rotateLeft l.third 12 +
    rotateLeft l.fourth 18
  mergeRound (mergeRound (mergeRound (mergeRound mixed l.first) l.second) l.third) l.fourth

def stripes : Nat → List UInt8 → Lanes → Lanes
  | 0, _, lanes => lanes
  | count + 1, bytes, lanes => stripes count (bytes.drop 32) (lanes.feed (bytes.take 32))

def mixEight (hash lane : UInt64) : UInt64 :=
  rotateLeft (hash ^^^ round 0 lane) 27 * prime1 + prime4

def mixFour (hash lane : UInt64) : UInt64 :=
  rotateLeft (hash ^^^ (lane * prime1)) 23 * prime2 + prime3

def mixByte (hash : UInt64) (byte : UInt8) : UInt64 :=
  rotateLeft (hash ^^^ (byte.toUInt64 * prime5)) 11 * prime1

def mixEights : Nat → List UInt8 → UInt64 → UInt64
  | 0, _, hash => hash
  | count + 1, bytes, hash => mixEights count (bytes.drop 8) (mixEight hash (word (bytes.take 8)))

def avalanche (hash : UInt64) : UInt64 :=
  let a := (hash ^^^ (hash >>> 33)) * prime2
  let b := (a ^^^ (a >>> 29)) * prime3
  b ^^^ (b >>> 32)

/-- The bytes that no stripe covers go in by eights, then by a four, then one by one. -/
def finish (tail : List UInt8) (hash : UInt64) : UInt64 :=
  let eights := tail.length / 8
  let short := tail.drop (8 * eights)
  let mixed := mixEights eights tail hash
  if 4 ≤ short.length then
    avalanche ((short.drop 4).foldl mixByte (mixFour mixed (word (short.take 4))))
  else
    avalanche (short.foldl mixByte mixed)

def ofBytes (bytes : List UInt8) : UInt64 :=
  let count := bytes.length / 32
  let start := if count = 0 then seed + prime5 else (stripes count bytes Lanes.init).merge
  finish (bytes.drop (32 * count)) (start + bytes.length.toUInt64)

def ofText (text : String) : UInt64 := ofBytes text.toUTF8.toList

/-- Sixteen lower-case hexadecimal digits. -/
def hex (hash : UInt64) : String :=
  let digits := Nat.toDigits 16 hash.toNat
  String.ofList (List.replicate (16 - digits.length) '0' ++ digits)

end GraphPlan.Fingerprint
