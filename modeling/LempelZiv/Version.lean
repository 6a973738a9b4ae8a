namespace LempelZiv

def versionMajor : Nat := 0
def versionMinor : Nat := 3
def versionPatch : Nat := 0

/-- The version as one number: two decimal digits each for minor and patch. -/
def versionNumber : Nat := versionMajor * 10000 + versionMinor * 100 + versionPatch

def versionText : String := s!"{versionMajor}.{versionMinor}.{versionPatch}"

end LempelZiv
