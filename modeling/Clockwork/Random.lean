namespace Clockwork

def rotateLeft (x : UInt64) (k : UInt64) : UInt64 :=
  (x <<< k) ||| (x >>> (64 - k))

/-- The output of the SplitMix64 generator at a state. -/
def splitMix (x : UInt64) : UInt64 :=
  let z := (x ^^^ (x >>> 30)) * 0xbf58476d1ce4e5b9
  let z := (z ^^^ (z >>> 27)) * 0x94d049bb133111eb
  z ^^^ (z >>> 31)

/-- The state of the Xoshiro256++ generator of random words. -/
structure Xoshiro where
  s0 : UInt64
  s1 : UInt64
  s2 : UInt64
  s3 : UInt64
deriving DecidableEq, Repr

namespace Xoshiro

/-- The state of a seed: four successive outputs of SplitMix64. -/
def ofSeed (seed : UInt64) : Xoshiro :=
  let step : UInt64 := 0x9e3779b97f4a7c15
  ⟨splitMix (seed + step), splitMix (seed + 2 * step), splitMix (seed + 3 * step),
    splitMix (seed + 4 * step)⟩

def next (r : Xoshiro) : UInt64 × Xoshiro :=
  let word := rotateLeft (r.s0 + r.s3) 23 + r.s0
  let t2 := r.s2 ^^^ r.s0
  let t3 := r.s3 ^^^ r.s1
  (word, ⟨r.s0 ^^^ t3, r.s1 ^^^ t2, t2 ^^^ (r.s1 <<< 17), rotateLeft t3 45⟩)

/-- The next random truth value: the highest bit of a word. -/
def nextBool (r : Xoshiro) : Bool × Xoshiro :=
  (r.next.1 >>> 63 == 1, r.next.2)

end Xoshiro

end Clockwork
