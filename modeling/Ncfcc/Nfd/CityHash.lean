import Ncfcc.Name

/-! The 64-bit string hash of the name tree, for a little-endian machine. A string
is a list of octets and `s + k` an offset into it; all arithmetic is modulo `2^64`. -/
namespace Ncfcc.Nfd.CityHash

def k0 : UInt64 := 0xc3a5c85c97cb3127
def k1 : UInt64 := 0xb492b66fbe98f273
def k2 : UInt64 := 0x9ae16a3b2f90404f

def fetch (count : Nat) (s : List UInt8) (offset : Nat) : UInt64 :=
  ((s.drop offset).take count).foldr (fun octet value => value <<< 8 ||| octet.toUInt64) 0

def fetch64 : List UInt8 → Nat → UInt64 := fetch 8

def fetch32 : List UInt8 → Nat → UInt64 := fetch 4

def rotate (val shift : UInt64) : UInt64 :=
  if shift = 0 then val else val >>> shift ||| val <<< (64 - shift)

def shiftMix (val : UInt64) : UInt64 := val ^^^ val >>> 47

def bswap64 (val : UInt64) : UInt64 :=
  (List.range 8).foldl (fun swapped index =>
    swapped <<< 8 ||| (val >>> (UInt64.ofNat (8 * index)) &&& 0xff)) 0

/-- `HashLen16` with a multiplier; `Hash128to64` is the case of a fixed one. -/
def hashLen16 (u v mul : UInt64) : UInt64 :=
  let a := shiftMix ((u ^^^ v) * mul)
  let b := shiftMix ((v ^^^ a) * mul)
  b * mul

def hash128to64 (low high : UInt64) : UInt64 := hashLen16 low high 0x9ddfea08eb382d69

def hashLen0to16 (s : List UInt8) : UInt64 :=
  let len := UInt64.ofNat s.length
  if 8 ≤ s.length then
    let mul := k2 + len * 2
    let a := fetch64 s 0 + k2
    let b := fetch64 s (s.length - 8)
    let c := rotate b 37 * mul + a
    let d := (rotate a 25 + b) * mul
    hashLen16 c d mul
  else if 4 ≤ s.length then
    let mul := k2 + len * 2
    let a := fetch32 s 0
    hashLen16 (len + (a <<< 3)) (fetch32 s (s.length - 4)) mul
  else if 0 < s.length then
    let a := s.getD 0 0
    let b := s.getD (s.length / 2) 0
    let c := s.getD (s.length - 1) 0
    let y := a.toUInt32 + b.toUInt32 <<< 8
    let z := UInt32.ofNat s.length + c.toUInt32 <<< 2
    shiftMix (y.toUInt64 * k2 ^^^ z.toUInt64 * k0) * k2
  else k2

def hashLen17to32 (s : List UInt8) : UInt64 :=
  let len := s.length
  let mul := k2 + UInt64.ofNat len * 2
  let a := fetch64 s 0 * k1
  let b := fetch64 s 8
  let c := fetch64 s (len - 8) * mul
  let d := fetch64 s (len - 16) * k2
  hashLen16 (rotate (a + b) 43 + rotate c 30 + d) (a + rotate (b + k2) 18 + c) mul

def weakHashLen32WithSeeds (s : List UInt8) (offset : Nat) (a b : UInt64) : UInt64 × UInt64 :=
  let w := fetch64 s offset
  let x := fetch64 s (offset + 8)
  let y := fetch64 s (offset + 16)
  let z := fetch64 s (offset + 24)
  let a := a + w
  let b := rotate (b + a + z) 21
  let c := a
  let a := a + x + y
  let b := b + rotate a 44
  (a + z,b + c)

def hashLen33to64 (s : List UInt8) : UInt64 :=
  let len := s.length
  let mul := k2 + UInt64.ofNat len * 2
  let a := fetch64 s 0 * k2
  let b := fetch64 s 8
  let c := fetch64 s (len - 24)
  let d := fetch64 s (len - 32)
  let e := fetch64 s 16 * k2
  let f := fetch64 s 24 * 9
  let g := fetch64 s (len - 8)
  let h := fetch64 s (len - 16) * mul
  let u := rotate (a + g) 43 + (rotate b 30 + c) * 9
  let v := ((a + g) ^^^ d) + f + 1
  let w := bswap64 ((u + v) * mul) + h
  let x := rotate (e + f) 42 + c
  let y := (bswap64 ((v + w) * mul) + g) * mul
  let z := e + f + c
  let a := bswap64 ((x + z) * mul + y) + b
  let b := shiftMix ((z + a) * mul + d + h) * mul
  b + x

structure Chunk where
  x : UInt64
  y : UInt64
  z : UInt64
  v : UInt64 × UInt64
  w : UInt64 × UInt64

/-- One round of the loop over 64-octet chunks. -/
def round (s : List UInt8) (state : Chunk) (offset : Nat) : Chunk :=
  let x := rotate (state.x + state.y + state.v.1 + fetch64 s (offset + 8)) 37 * k1
  let y := rotate (state.y + state.v.2 + fetch64 s (offset + 48)) 42 * k1
  let x := x ^^^ state.w.2
  let y := y + state.v.1 + fetch64 s (offset + 40)
  let z := rotate (state.z + state.w.1) 33 * k1
  let v := weakHashLen32WithSeeds s offset (state.v.2 * k1) (x + state.w.1)
  let w := weakHashLen32WithSeeds s (offset + 32) (z + state.w.2) (y + fetch64 s (offset + 16))
  ⟨z,y,x,v,w⟩

def hashLong (s : List UInt8) : UInt64 :=
  let len := s.length
  let x := fetch64 s (len - 40)
  let y := fetch64 s (len - 16) + fetch64 s (len - 56)
  let z := hash128to64 (fetch64 s (len - 48) + UInt64.ofNat len) (fetch64 s (len - 24))
  let v := weakHashLen32WithSeeds s (len - 64) (UInt64.ofNat len) z
  let w := weakHashLen32WithSeeds s (len - 32) (y + k1) x
  let x := x * k1 + fetch64 s 0
  let last := ((List.range ((len - 1) / 64)).map (64 * ·)).foldl (round s) ⟨x,y,z,v,w⟩
  hash128to64 (hash128to64 last.v.1 last.w.1 + shiftMix last.y * k1 + last.z)
    (hash128to64 last.v.2 last.w.2 + last.x)

def cityHash64 (s : List UInt8) : UInt64 :=
  if s.length ≤ 16 then hashLen0to16 s
  else if s.length ≤ 32 then hashLen17to32 s
  else if s.length ≤ 64 then hashLen33to64 s
  else hashLong s

def cityHash64WithSeed (s : List UInt8) (seed : UInt64) : UInt64 := hash128to64 (cityHash64 s - k2) seed

end Ncfcc.Nfd.CityHash
