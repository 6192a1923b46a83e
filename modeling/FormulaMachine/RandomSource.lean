/-!
Sources of random words.
-/
namespace FormulaMachine

/-- All the words that a source will ever yield, and how many it has yielded. -/
structure RandomSource where
  word : Nat → UInt64
  drawn : Nat := 0

namespace RandomSource

def next (r : RandomSource) : UInt64 × RandomSource :=
  (r.word r.drawn, { r with drawn := r.drawn + 1 })

/-- A number from zero up to but without one, with 53 random bits. -/
def unit (r : RandomSource) : Float × RandomSource :=
  let (w, r) := r.next
  ((w >>> 11).toFloat / 9007199254740992, r)

/-- Yields the given words over and over. -/
def cycle (words : List UInt64) : RandomSource where
  word k := words.getD (k % words.length) 0

def mix (z : UInt64) : UInt64 :=
  let z := (z ^^^ (z >>> 30)) * 0xBF58476D1CE4E5B9
  let z := (z ^^^ (z >>> 27)) * 0x94D049BB133111EB
  z ^^^ (z >>> 31)

/-- Words scattered by a key. Each can be had without those before it. -/
def ofKey (key : UInt64) : RandomSource where
  word k := mix (key + (UInt64.ofNat k + 1) * 0x9E3779B97F4A7C15)

/-- Equal seeds yield equal words. -/
def ofSeed (seed : UInt64) : RandomSource := .ofKey (mix (seed ^^^ 0xD1B54A32D192ED03))

end RandomSource
end FormulaMachine
