/-!
# Content digests

The SHA-1 digest of a text's bytes, by which a change of content is noticed.
-/

namespace Concordance.Digest

/-- The five words of the running digest. -/
structure Words where
  a : UInt32
  b : UInt32
  c : UInt32
  d : UInt32
  e : UInt32

def Words.initial : Words := ⟨0x67452301, 0xefcdab89, 0x98badcfe, 0x10325476, 0xc3d2e1f0⟩

def rotate (n : UInt32) (w : UInt32) : UInt32 := (w <<< n) ||| (w >>> (32 - n))

def wordOf (bytes : Array UInt8) (offset : Nat) : UInt32 :=
  (List.range 4).foldl (fun w i => (w <<< 8) ||| (bytes.getD (offset + i) 0).toUInt32) 0

def bigEndian (width n : Nat) : List UInt8 :=
  (List.range width).map fun i => (n >>> (8 * (width - 1 - i))).toUInt8

/-- The message with its end marker and its length in bits, a whole number of 64-byte blocks. -/
def pad (content : ByteArray) : Array UInt8 :=
  let zeros := (119 - content.size % 64) % 64
  (content.toList ++ 0x80 :: List.replicate zeros 0 ++ bigEndian 8 (8 * content.size)).toArray

def schedule (bytes : Array UInt8) (block : Nat) : Array UInt32 :=
  let first := (Array.range 16).map fun i => wordOf bytes (64 * block + 4 * i)
  (List.range 64).foldl
    (fun w i =>
      w.push (rotate 1 (w.getD (i + 13) 0 ^^^ w.getD (i + 8) 0 ^^^ w.getD (i + 2) 0 ^^^ w.getD i 0)))
    first

def roundOf (i : Nat) (b c d : UInt32) : UInt32 × UInt32 :=
  if i < 20 then ((b &&& c) ||| (~~~b &&& d), 0x5a827999)
  else if i < 40 then (b ^^^ c ^^^ d, 0x6ed9eba1)
  else if i < 60 then ((b &&& c) ||| (b &&& d) ||| (c &&& d), 0x8f1bbcdc)
  else (b ^^^ c ^^^ d, 0xca62c1d6)

def mix (w : Array UInt32) (h : Words) (i : Nat) : Words :=
  let (f, k) := roundOf i h.b h.c h.d
  ⟨rotate 5 h.a + f + h.e + k + w.getD i 0, h.a, rotate 30 h.b, h.c, h.d⟩

def absorb (bytes : Array UInt8) (h : Words) (block : Nat) : Words :=
  let r := (List.range 80).foldl (mix (schedule bytes block)) h
  ⟨h.a + r.a, h.b + r.b, h.c + r.c, h.d + r.d, h.e + r.e⟩

def Words.hexOf (w : UInt32) : String :=
  let digits := Nat.toDigits 16 w.toNat
  String.ofList (List.replicate (8 - digits.length) '0' ++ digits)

def sha1 (content : ByteArray) : String :=
  let bytes := pad content
  let h := (List.range (bytes.size / 64)).foldl (absorb bytes) Words.initial
  String.join ([h.a, h.b, h.c, h.d, h.e].map Words.hexOf)

end Concordance.Digest
