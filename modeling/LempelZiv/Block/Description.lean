import LempelZiv.Block.Compress

namespace LempelZiv

def optionText : Option Nat → String
  | none => "None"
  | some n => s!"Some({n})"

def boolText (b : Bool) : String := if b then "true" else "false"

/-- The parameters on one line, as `name: value` in the order of the fields. -/
def SearchParams.describe (p : SearchParams) : String :=
  s!"SearchParams \x7b max_attempts: {p.maxAttempts}, window_size: {p.windowSize}, "
    ++ s!"hash_log: {p.hashLog}, skip_strength: " ++ optionText p.skipStrength
    ++ ", enhanced_hash: " ++ boolText p.hashesFive ++ ", lazy: " ++ boolText p.lazySearch
    ++ s!", lazy_margin: {p.lazyMargin}, lazy_cutoff: {p.lazyCutoff}, "
    ++ s!"good_enough: {p.goodEnough}, insert_covered: " ++ boolText p.insertCovered ++ " \x7d"

/-- The name of the way in which bytes are compared. -/
def comparisonName : String := "word"

/-- One line on a block that is about to be compressed. -/
def describeBlock (src : ByteArray) (o : BlockOptions) : Except Error String := do
  checkBlockSize src.size
  return s!"Block \x7b len: {src.size}, level: CompressionLevel({o.level.number}), params: "
    ++ o.params.describe ++ ", compare: \"" ++ comparisonName ++ "\" \x7d"

end LempelZiv
