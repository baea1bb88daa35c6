import Shorthand.Text.Blank

/-!
# Link targets

Guesses the target of a link from the text that it wraps: an address with a scheme stands for
itself, one that begins with `www.` or `ftp.` gets a scheme, and an e-mail address becomes a
`mailto:` target.
-/

namespace Shorthand.Link

/-- A letter, in either case. Two characters beyond ASCII have an ASCII letter as their other case:
the long s and the Kelvin sign. -/
def isAddressLetter (c : Char) : Bool :=
  c.isAlpha || c == '\u017f' || c == '\u212a'

/-- A character before the at sign of an e-mail address. -/
def isLocalChar (c : Char) : Bool :=
  isAddressLetter c || c.isDigit || c == '.' || c == '_' || c == '%' || c == '+' || c == '-'

/-- A character of the domain of an e-mail address. -/
def isDomainChar (c : Char) : Bool :=
  isAddressLetter c || c.isDigit || c == '.' || c == '-'

/-- The beginnings of addresses that are complete. -/
def schemes : List String :=
  ["http://", "https://", "ftp://", "file://", "//"]

/-- The beginnings of addresses that lack a scheme. -/
def hosts : List String :=
  ["www.", "ftp."]

/-- Whether `text` begins with one of `starts` and holds no space. -/
def isAddress (starts : List String) (text : List Char) : Bool :=
  starts.any (fun start => start.toList.isPrefixOf text) && !text.contains ' '

/-- Whether `text` is the domain of an e-mail address: its last part has two to five letters. -/
def isDomain (text : List Char) : Bool :=
  let top := (text.reverse.takeWhile (· != '.')).reverse
  let name := (text.reverse.dropWhile (· != '.')).tail.reverse
  text.contains '.' && 2 ≤ top.length && top.length ≤ 5 && top.all isAddressLetter &&
    !name.isEmpty && name.all isDomainChar

/-- Whether `text` is an e-mail address. -/
def isEmail (text : List Char) : Bool :=
  let user := text.takeWhile (· != '@')
  match text.dropWhile (· != '@') with
  | [] => false
  | _ :: domain => !user.isEmpty && user.all isLocalChar && isDomain domain

/-- The target of a link that wraps `text`, or nothing if the text is no address. -/
def target (text : List Char) : List Char :=
  let text := Text.trim text
  if isAddress schemes text then text
  else if isAddress hosts text then "http://".toList ++ text
  else if isEmail text then "mailto:".toList ++ text
  else []

/-- The target of a link that wraps `text`, as a string. -/
def hrefFor (text : String) : String :=
  String.ofList (target text.toList)

end Shorthand.Link
