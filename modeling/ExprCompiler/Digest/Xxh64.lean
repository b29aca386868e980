/-
# The 64-bit xxHash digest

A non-cryptographic digest of a byte string.  Input is consumed in three
stages: 32-byte stripes feed four independent lanes, what is left is folded
into the merged lanes word by word and then byte by byte, and a final
avalanche spreads every input bit over the whole result.  All arithmetic
wraps at 64 bits; words are read little-endian.

Nothing above this module looks inside the digest: identities are built from
its value alone.
-/

namespace ExprCompiler.Digest

/-! ## The five multipliers -/

def prime1 : UInt64 := 0x9E3779B185EBCA87
def prime2 : UInt64 := 0xC2B2AE3D27D4EB4F
def prime3 : UInt64 := 0x165667B19E3779F9
def prime4 : UInt64 := 0x85EBCA77C2B2AE63
def prime5 : UInt64 := 0x27D4EB2F165667C5

/-- Rotation to the left by `k`, for `0 < k < 64`. -/
def rotateLeft (x k : UInt64) : UInt64 :=
  (x <<< k) ||| (x >>> (64 - k))

/-! ## Reading words -/

/-- The byte at `i`, and zero past the end. -/
def byteAt (bytes : ByteArray) (i : Nat) : UInt64 :=
  if h : i < bytes.size then (bytes[i]).toUInt64 else 0

/-- The little-endian word of `width` bytes that starts at `i`. -/
def wordAt (bytes : ByteArray) (width i : Nat) : UInt64 :=
  (List.range width).foldr (fun k word => (word <<< 8) ||| byteAt bytes (i + k)) 0

/-! ## Lanes -/

/-- One word absorbed by one lane. -/
def absorb (lane word : UInt64) : UInt64 :=
  rotateLeft (lane + word * prime2) 31 * prime1

/-- The four lanes that stripes feed. -/
structure Lanes where
  a : UInt64
  b : UInt64
  c : UInt64
  d : UInt64

def Lanes.start (seed : UInt64) : Lanes where
  a := seed + prime1 + prime2
  b := seed + prime2
  c := seed
  d := seed - prime1

/-- The lanes after the 32-byte stripe that starts at `i`. -/
def Lanes.stripe (bytes : ByteArray) (lanes : Lanes) (i : Nat) : Lanes where
  a := absorb lanes.a (wordAt bytes 8 i)
  b := absorb lanes.b (wordAt bytes 8 (i + 8))
  c := absorb lanes.c (wordAt bytes 8 (i + 16))
  d := absorb lanes.d (wordAt bytes 8 (i + 24))

/-- One lane folded into the running digest. -/
def mergeLane (digest lane : UInt64) : UInt64 :=
  (digest ^^^ absorb 0 lane) * prime1 + prime4

def Lanes.merge (lanes : Lanes) : UInt64 :=
  let sum := rotateLeft lanes.a 1 + rotateLeft lanes.b 7
    + rotateLeft lanes.c 12 + rotateLeft lanes.d 18
  mergeLane (mergeLane (mergeLane (mergeLane sum lanes.a) lanes.b) lanes.c) lanes.d

/-! ## The tail and the avalanche -/

def absorbWord (digest word : UInt64) : UInt64 :=
  rotateLeft (digest ^^^ absorb 0 word) 27 * prime1 + prime4

def absorbHalf (digest half : UInt64) : UInt64 :=
  rotateLeft (digest ^^^ (half * prime1)) 23 * prime2 + prime3

def absorbByte (digest byte : UInt64) : UInt64 :=
  rotateLeft (digest ^^^ (byte * prime5)) 11 * prime1

def avalanche (digest : UInt64) : UInt64 :=
  let x := (digest ^^^ (digest >>> 33)) * prime2
  let y := (x ^^^ (x >>> 29)) * prime3
  y ^^^ (y >>> 32)

/-- What the stripes leave behind, before the length is added. -/
def stripes (bytes : ByteArray) (seed : UInt64) : UInt64 :=
  if bytes.size < 32 then seed + prime5
  else
    ((List.range (bytes.size / 32)).foldl
      (fun lanes k => lanes.stripe bytes (32 * k)) (Lanes.start seed)).merge

/-- The bytes after the last stripe: whole words, then a half word, then
single bytes. -/
def tail (bytes : ByteArray) (digest : UInt64) : UInt64 :=
  let start := bytes.size / 32 * 32
  let words := bytes.size % 32 / 8
  let halves := bytes.size % 8 / 4
  let singles := bytes.size % 4
  let afterWords := (List.range words).foldl
    (fun acc k => absorbWord acc (wordAt bytes 8 (start + 8 * k))) digest
  let afterHalves := (List.range halves).foldl
    (fun acc k => absorbHalf acc (wordAt bytes 4 (start + 8 * words + 4 * k))) afterWords
  (List.range singles).foldl
    (fun acc k => absorbByte acc (byteAt bytes (start + 8 * words + 4 * halves + k)))
    afterHalves

/-- The digest of `bytes` under `seed`. -/
def xxh64Bytes (bytes : ByteArray) (seed : UInt64) : UInt64 :=
  avalanche (tail bytes (stripes bytes seed + bytes.size.toUInt64))

/-- The digest of a text is that of its UTF-8 bytes under seed zero. -/
def xxh64 (text : String) : UInt64 :=
  xxh64Bytes text.toUTF8 0

end ExprCompiler.Digest
