import StyleLayers.Css.Token

/-!
Property names: camel case becomes hyphenated lower case.
-/

namespace StyleLayers.Property

def lowered (c : Char) : Char := Char.ofNat (c.toNat + 32)

def isUpper (c : Char) : Bool := 'A' ≤ c && c ≤ 'Z'

def hyphenatedChar (c : Char) : List Char := if isUpper c then ['-', lowered c] else [c]

/-- The vendor prefix `ms` gets the hyphen in front that the other vendors have. -/
def vendorMarked : List Char → List Char
  | 'm' :: 's' :: '-' :: rest => '-' :: 'm' :: 's' :: '-' :: rest
  | cs => cs

/-- Custom properties, which start with two hyphens, keep their spelling. -/
def hyphenatedOf : List Char → List Char
  | '-' :: '-' :: rest => '-' :: '-' :: rest
  | cs => vendorMarked (cs.flatMap hyphenatedChar)

def hyphenated (property : String) : String := String.ofList (hyphenatedOf property.toList)

end StyleLayers.Property
