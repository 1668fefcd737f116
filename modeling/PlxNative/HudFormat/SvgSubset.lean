import PlxNative.Lib.Slices

/-! The SVG subset a HUD asset may use: the tokenizer that checks one before the rasteriser sees it. -/
namespace PlxNative.HudFormat
open Text

/-- What the standard library makes of a number and of a character in a message. -/
class Floats (F : Type) where
  parse : Text → Option F
  isFinite : F → Bool
  isPositive : F → Bool
  div : F → F → F
  debug : Char → String

namespace Svg

def maxAssetBytes : Nat := 16 * 1024

def maxPathsPerAsset : Nat := 8

structure ViewBox (F : Type) where
  minX : F
  minY : F
  width : F
  height : F
deriving DecidableEq

structure SvgInfo (F : Type) where
  viewBox : ViewBox F
  paths : Nat
deriving DecidableEq

inductive Code where
  | e0701
  | e0702
  | e0703
  | e0704
  | e0705
  | e0706
deriving DecidableEq

structure Finding where
  code : Code
  pointer : String
  message : String
  hint : String
deriving DecidableEq

def svgNamespace : Text := "http://www.w3.org/2000/svg".toList

def echoChars : Nat := 24

def hintGradient : String :=
  "HUD assets are alpha masks tinted by the app; a gradient would be discarded, so draw the mark in one colour"

def hintColour : String :=
  "assets are masks tinted per state, so colour would be dropped; colour comes from the face's ink, so remove the attribute (a white fill is accepted; stroked marks must be drawn as filled outlines)"

def hintAttribute : String :=
  "an asset is a mask that holds only <svg viewBox> and <path d>; remove the attribute (bake a transform into the path data)"

def hintReference : String :=
  "an asset is a self-contained mask: entities, external references and linked resources are not allowed; remove the attribute"

def hintEntity : String :=
  "entities and external references are not allowed in an asset; write the character itself, or remove it"

def hintSyntax : String :=
  "write the asset as plain XML: <svg viewBox='0 0 24 24'><path d='M...'/></svg>, with no declarations, instructions or CDATA"

def hintStructure : String := "an asset is one <svg viewBox> holding <path d> elements, each closed, and nothing else"

/-- An element the subset refuses is `other`, and so is a nested root. -/
inductive Kind where
  | svg
  | path
  | other
deriving DecidableEq

structure Attr where
  name : Text
  value : Text
  place : Nat
  valuePlace : Nat

structure Open where
  name : Text
  attrs : List Attr
  selfClosing : Bool
  place : Nat

def isWs (b : UInt8) : Bool := b == 32 || b == 9 || b == 13 || b == 10

def isAlphabetic (b : UInt8) : Bool := 65 ≤ b && b ≤ 90 || 97 ≤ b && b ≤ 122

def isNameStart (b : UInt8) : Bool := isAlphabetic b || b == 95 || b == 58

def isNameChar (b : UInt8) : Bool := isAlphabetic b || 48 ≤ b && b ≤ 57 || b == 95 || b == 58 || b == 46 || b == 45

def lower (s : Text) : Text := s.map Char.toLower

/-- A name or value as a message quotes it. -/
def clip (s : Text) : String := if echoChars < s.length then String.ofList (s.take echoChars) ++ "..." else String.ofList s

def isPaint (name : Text) : Bool :=
  let n := lower name
  n == "fill".toList || n == "style".toList || n == "class".toList || "stroke".toList.isPrefixOf n ||
    "opacity".toList.isSuffixOf n || "color".toList.isSuffixOf n

def trimAscii (s : Text) : Text := ((s.dropWhile isAsciiWhitespace).reverse.dropWhile isAsciiWhitespace).reverse

def isMaskWhite (value : Text) : Bool :=
  ["#fff", "#ffffff", "white"].any fun white => eqIgnoreAsciiCase (trimAscii value) white.toList

def isPathChar (c : Char) : Bool := c.isDigit || isAsciiWhitespace c || "MmLlHhVvCcSsQqTtAaZz,+-.eE".toList.contains c

/-- What to tell the author about an element outside the subset. -/
def elementHint (name : Text) : String :=
  if ["linearGradient", "radialGradient", "stop", "pattern"].any (·.toList == name) then hintGradient
  else if ["text", "tspan"].any (·.toList == name) then
    "text is not a mask: convert the glyph outlines to a <path> (an SVG editor's \"convert text to outlines\")"
  else if "style".toList == name then
    "a style sheet sets colour and is not a mask: remove <style> and draw the mark as one filled <path>"
  else if ["image", "use", "foreignObject", "script"].any (·.toList == name) then
    "a mask asset is self-contained and runs nothing: draw the mark as inline <path> data, not as a reference to or an embedding of something else"
  else if ["rect", "circle", "ellipse", "line", "polyline", "polygon"].any (·.toList == name) then
    "a mask is one path of subpaths: express the shape as a <path> (a stroked line becomes a filled outline)"
  else if ["filter", "mask", "clipPath"].any (·.toList == name) then
    "the rasteriser does not support filters, masks or clip paths: bake the effect into the path outlines"
  else if ["g", "defs", "symbol", "switch"].any (·.toList == name) then
    "grouping is not part of the mask contract: put the <path> elements directly inside the <svg>"
  else "an asset is a mask: one <svg viewBox> holding <path d> elements; draw the mark as path data"

section
variable {F : Type} [Floats F]

def viewBoxByte (b : UInt8) : Bool := 48 ≤ b && b ≤ 57 || b == 43 || b == 45 || b == 46 || b == 101 || b == 69

def readNumbers : List Text → List F → Except String (List F)
  | [], numbers => .ok numbers
  | token :: rest, numbers =>
    if !(bytes token).all viewBoxByte then .error "it holds something that is not a number"
    else match Floats.parse token with
      | none => .error "it holds something that is not a number"
      | some n =>
        if !Floats.isFinite (F := F) n then .error "it holds a number that is not finite"
        else readNumbers rest (numbers ++ [n])

def parseViewBox (value : Text) : Except String (ViewBox F) :=
  match readNumbers ((value.splitOnP fun c => c == ',' || isAsciiWhitespace c).filter fun t => !t.isEmpty) ([] : List F) with
  | .error why => .error why
  | .ok [minX, minY, w, h] =>
    if !(Floats.isPositive w && Floats.isPositive h) then .error "its width and height must be above zero"
    else if !(Floats.isFinite (Floats.div w h) && Floats.isFinite (Floats.div h w)) then
      .error "its width and height are too far apart in size"
    else .ok ⟨minX, minY, w, h⟩
  | .ok _ => .error "it must hold exactly four numbers: min-x min-y width height"

end

/-- The open elements have the innermost one first. -/
structure Checker (F : Type) where
  pointer : String
  src : Text
  pos : Cursor
  out : List Finding
  seen : List (Code × String)
  stack : List (Text × Kind)
  rootSeen : Bool
  rootDone : Bool
  rootPlace : Nat
  viewBox : Option (ViewBox F)
  paths : Nat
  excessPlace : Nat

/-- The scan cannot go on: the finding that says why is already reported. -/
inductive Halt where
  | halt

/-- What a step of the scan comes to; a slice inside a character comes to nothing. -/
abbrev Step (F α : Type) := Option (Checker F × Except Halt α)

namespace Checker
variable {F α β : Type}

def new (pointer : String) (src : Text) : Checker F :=
  ⟨pointer, src, ⟨0, src⟩, [], [], [], false, false, 0, none, 0, 0⟩

/-- A repeat of what was said before is dropped. -/
def report (c : Checker F) (code : Code) (place : Nat) (what hint : String) : Checker F :=
  if (code, what) ∈ c.seen then c
  else { c with
    seen := (code, what) :: c.seen
    out := c.out ++ [⟨code, c.pointer, what ++ " (byte " ++ toString place ++ ")", hint⟩] }

def halted (c : Checker F) (code : Code) (place : Nat) (what hint : String) : Step F α :=
  some (c.report code place what hint, .error .halt)

def andThen (step : Step F α) (next : Checker F → α → Step F β) : Step F β :=
  match step with
  | none => none
  | some (c, .error h) => some (c, .error h)
  | some (c, .ok a) => next c a

def declaration (c : Checker F) : Step F Unit :=
  match stripPrefix "<?xml".toList c.pos.rest with
  | none => some (c, .ok ())
  | some after =>
    if !after.head?.any isAsciiWhitespace then some (c, .ok ())
    else match splitOnText "?>".toList after with
      | none => c.halted .e0704 c.pos.offset "the <?xml declaration is never closed" hintSyntax
      | some (body, _) =>
        if body.any fun x => x == '&' || x == '<' then
          c.halted .e0703 c.pos.offset "the <?xml declaration holds markup or an entity" hintSyntax
        else (c.pos.take (5 + byteLen body + 2)).map fun next => ({ c with pos := next.2 }, .ok ())

def text (c : Checker F) (s : Text) (place : Nat) : Step F Unit :=
  match byteFind (· == '&') s with
  | some i => some (c.report .e0703 (place + i) "an entity reference" hintEntity, .ok ())
  | none =>
    if (bytes s).all isWs then some (c, .ok ())
    else match c.stack.head?.map Prod.snd with
      | some .other => some (c, .ok ())
      | some _ => some (c.report .e0704 place "text between elements" hintStructure, .ok ())
      | none => c.halted .e0704 place
          (if c.rootDone then "content after the closing </svg>" else "content before the <svg> element") hintStructure

def skipPast (c : Checker F) (end_ : Text) (place : Nat) (what : String) : Step F Unit :=
  match splitOnText end_ c.pos.rest with
  | some (body, _) => (c.pos.take (byteLen body + byteLen end_)).map fun next => ({ c with pos := next.2 }, .ok ())
  | none => c.halted .e0704 place (what ++ " is never closed") hintSyntax

def comment (c : Checker F) : Step F Unit :=
  let place := c.pos.offset
  (c.pos.take 4).bind fun opened =>
    let rest := opened.2.rest
    if ">".toList.isPrefixOf rest || "->".toList.isPrefixOf rest then
      c.halted .e0704 place "a comment that some parsers close at once" "write comments as <!-- text -->"
    else match splitOnText "-->".toList rest with
      | some (body, _) => (opened.2.take (byteLen body + 3)).bind fun next =>
        let c := { c with pos := next.2 }
        if (splitOnce '>' body).any fun cut => cut.2.contains '<' then
          c.halted .e0704 place "a comment with markup after a `>` inside it"
            "nanosvg ends a comment at the first `>` and reads what follows as markup: leave `<` out of a comment after a `>`, or write no `>` in it"
        else some (c, .ok ())
      | none => c.halted .e0704 place "a comment is never closed" "close the comment with -->"

/-- The name of a closing tag, and the place behind its blanks. -/
def closeName (c : Checker F) : Option (Text × Cursor) :=
  (c.pos.take 2).bind fun opened => (opened.2.takeWhile isNameChar).bind fun name =>
    (name.2.takeWhile isWs).map fun gap => (name.1, gap.2)

def closeTag (c : Checker F) : Step F Unit :=
  let place := c.pos.offset
  c.closeName.bind fun closed =>
    if closed.1.isEmpty || closed.2.byte != some 62 then
      c.halted .e0704 place "a closing tag that is not </name>" hintStructure
    else (closed.2.take 1).bind fun next =>
      let c := { c with pos := next.2 }
      match c.stack with
      | [] => c.halted .e0704 place ("</" ++ clip closed.1 ++ "> closes nothing") hintStructure
      | (opened, _) :: stack =>
        let c := { c with stack := stack }
        if opened != closed.1 then
          c.halted .e0704 place ("</" ++ clip closed.1 ++ "> closes <" ++ clip opened ++ ">") hintStructure
        else some (if stack.isEmpty then { c with rootDone := true } else c, .ok ())

/-- An attribute, with the cursor on its name, and the place behind its closing quote. -/
def attrAt (here : Cursor) : Option (Except (String × String) (Attr × Cursor)) :=
  (here.takeWhile isNameChar).bind fun named => (named.2.takeWhile isWs).bind fun before =>
    if before.2.byte != some 61 then some (.error ("attribute " ++ clip named.1 ++ " has no =value", hintStructure))
    else (before.2.take 1).bind fun equals => (equals.2.takeWhile isWs).bind fun after =>
      if !after.2.byte.any (fun q => q == 34 || q == 39) then
        some (.error ("attribute " ++ clip named.1 ++ " is not quoted", "quote the value with \" or '"))
      else (after.2.take 1).bind fun quote => (quote.2.upTo ((quote.1.head?).getD '"')).bind fun closed => match closed with
        | none => some (.error
            ("the value of " ++ clip named.1 ++ " is never closed", "close the value with the quote that opened it"))
        | some value => (value.2.take 1).map fun next => .ok (⟨named.1, value.1, here.offset, quote.2.offset⟩, next.2)

def entity (c : Checker F) (value : Text) (place : Nat) : Checker F :=
  match byteFind (· == '&') value with
  | some k => c.report .e0703 (place + k) "an entity reference" hintEntity
  | none => c

/-- The attributes of a tag, from the place behind its name or behind another value. -/
def attrsLoop (name : Text) (place : Nat) : Nat → Cursor → List Attr → Checker F → Step F Open
  | 0, _, _, _ => none
  | fuel + 1, gap, attrs, c =>
    (gap.takeWhile isWs).bind fun skipped =>
      let here := skipped.2
      if here.byte == none then
        c.halted .e0704 place ("<" ++ clip name ++ "> is never finished with '>'") hintStructure
      else if here.byte == some 62 then
        (here.take 1).map fun next => ({ c with pos := next.2 }, .ok ⟨name, attrs, false, place⟩)
      else if here.byte == some 47 && (bytes here.rest)[1]? == some 62 then
        (here.take 2).map fun next => ({ c with pos := next.2 }, .ok ⟨name, attrs, true, place⟩)
      else if skipped.1.isEmpty || !here.byte.any isNameStart then
        c.halted .e0704 here.offset ("<" ++ clip name ++ "> has something that is not a whitespace-separated attribute")
          hintStructure
      else (attrAt here).bind fun read => match read with
        | .error why => c.halted .e0704 here.offset why.1 why.2
        | .ok (attr, next) =>
          let c := c.entity attr.value attr.valuePlace
          if attrs.any (·.name == attr.name) then
            attrsLoop name place fuel next attrs
              (c.report .e0704 here.offset ("attribute " ++ clip attr.name ++ " is written twice") "remove the repeat")
          else attrsLoop name place fuel next (attrs ++ [attr]) c

def openTag (c : Checker F) : Step F Open :=
  let place := c.pos.offset
  (c.pos.take 1).bind fun opened =>
    if !opened.2.byte.any isNameStart then c.halted .e0704 place "a '<' that does not start an element" hintStructure
    else (opened.2.takeWhile isNameChar).bind fun name =>
      attrsLoop name.1 place (opened.2.rest.length + 1) name.2 [] c

def holds (mark : String) (s : Text) : Bool := (splitOnText mark.toList s).isSome

/-- A link, or a value that points outside the asset; whether the attribute is dealt with. -/
def reference (c : Checker F) (element : Text) (attr : Attr) (kind : Kind) : Checker F × Bool :=
  let name := lower attr.name
  if name == "href".toList || ":href".toList.isSuffixOf name || "xlink:".toList.isPrefixOf name ||
      "xmlns:".toList.isPrefixOf name then
    (c.report .e0703 attr.place ("attribute " ++ clip attr.name ++ " on <" ++ clip element ++ "> is a reference")
      hintReference, true)
  else if attr.name == "xmlns".toList then
    if attr.value == svgNamespace then (c, false)
    else (c.report .e0703 attr.valuePlace ("xmlns=\"" ++ clip attr.value ++ "\" is not the SVG namespace")
      "write xmlns='http://www.w3.org/2000/svg' or leave the attribute out", true)
  else
    let value := lower attr.value
    let external := holds "://" value || holds "data:" value
    let paint := isPaint attr.name
    if external || holds "url(" value && !paint then
      (c.report .e0703 attr.valuePlace
        ("attribute " ++ clip attr.name ++ "=\"" ++ clip attr.value ++ "\" on <" ++ clip element ++ "> points outside the asset")
        hintReference, !paint || kind == .other)
    else (c, false)

section
variable [Floats F]

def pathData (c : Checker F) (attr : Attr) : Checker F :=
  if (trimAscii attr.value).isEmpty then
    c.report .e0704 attr.valuePlace "the path's d is empty" "give the <path> data: d='M6 4l14 8-14 8z'"
  else match byteFind (fun x => !isPathChar x) attr.value, attr.value.find? (fun x => !isPathChar x) with
    | some i, some x => c.report .e0704 (attr.valuePlace + i)
        ("the path's d holds " ++ Floats.debug F x ++ ", which is not path data")
        "path data uses only the commands MmLlHhVvCcSsQqTtAaZz, numbers, spaces and commas"
    | _, _ => c

/-- One attribute of an `svg` or `path` element against the allow-list. -/
def allowed (c : Checker F) (element : Text) (attr : Attr) (kind : Kind) : Checker F :=
  if kind = .svg ∧ attr.name = "viewBox".toList then
    match parseViewBox attr.value with
    | .ok viewBox => { c with viewBox := some viewBox }
    | .error why => c.report .e0704 attr.valuePlace ("viewBox=\"" ++ clip attr.value ++ "\": " ++ why)
        "write viewBox='0 0 24 24': min-x min-y width height"
  else if kind = .svg ∧ attr.name = "xmlns".toList then c
  else if attr.name = "fill".toList then
    if isMaskWhite attr.value then c
    else c.report .e0702 attr.valuePlace
      ("fill=\"" ++ clip attr.value ++ "\" on <" ++ String.ofList element ++ "> is not the mask white") hintColour
  else if kind = .path ∧ attr.name = "d".toList then c.pathData attr
  else if kind = .path ∧ attr.name = "fill-rule".toList then
    if attr.value != "nonzero".toList && attr.value != "evenodd".toList then
      c.report .e0702 attr.valuePlace ("fill-rule=\"" ++ clip attr.value ++ "\" is neither nonzero nor evenodd") hintAttribute
    else c
  else c.report .e0702 attr.place
    ("attribute " ++ clip attr.name ++ " on <" ++ String.ofList element ++ "> is not part of the mask subset")
    (if isPaint attr.name then hintColour else hintAttribute)

def checkAttr (element : Text) (kind : Kind) (c : Checker F) (attr : Attr) : Checker F :=
  let read := c.reference element attr kind
  if read.2 || kind == .other then read.1 else read.1.allowed element attr kind

/-- Every attribute of one element, then the one it must have. -/
def attributes (c : Checker F) (tag : Open) (kind : Kind) : Checker F :=
  let c := tag.attrs.foldl (checkAttr tag.name kind) c
  let missing := match kind with
    | .svg => if !tag.attrs.any (·.name == "viewBox".toList) then some ("viewBox", "<svg viewBox='0 0 24 24'>") else none
    | .path => if !tag.attrs.any (·.name == "d".toList) then some ("d", "<path d='M...'/>") else none
    | .other => none
  match missing with
  | some (name, sample) => c.report .e0704 tag.place
      ("<" ++ String.ofList tag.name ++ "> has no " ++ name ++ " attribute") ("write " ++ sample)
  | none => c

/-- What an element is, with its parent's kind, and the count of paths. -/
def kindOf (c : Checker F) (tag : Open) : Step F Kind :=
  match c.stack.head?.map Prod.snd with
  | none =>
    if tag.name != "svg".toList then
      c.halted .e0704 tag.place ("the root element is <" ++ clip tag.name ++ ">, not <svg>") hintStructure
    else some ({ c with rootSeen := true, rootPlace := tag.place }, .ok .svg)
  | some parent =>
    if tag.name = "svg".toList then
      some (c.report .e0704 tag.place "an <svg> inside the <svg>" hintStructure, .ok .other)
    else if tag.name = "path".toList then
      let c := if parent == .path then
          c.report .e0704 tag.place "a <path> inside a <path>" "a <path> has no children: write it as <path d='...'/>"
        else c
      some ({ c with
        paths := c.paths + 1
        excessPlace := if c.paths + 1 = maxPathsPerAsset + 1 then tag.place else c.excessPlace }, .ok .path)
    else some (c.report .e0701 tag.place ("element <" ++ clip tag.name ++ "> is not part of the mask subset")
      (elementHint tag.name), .ok .other)

/-- An element opens: it stays open unless it closed itself. -/
def opening (c : Checker F) (tag : Open) : Step F Unit :=
  if c.rootDone then
    c.halted .e0704 tag.place ("a second element, <" ++ clip tag.name ++ ">, after the closing </svg>") hintStructure
  else andThen (c.kindOf tag) fun placed kind =>
    let checked := placed.attributes tag kind
    some (if tag.selfClosing then (if c.stack.isEmpty then { checked with rootDone := true } else checked)
      else { checked with stack := (tag.name, kind) :: checked.stack }, .ok ())

def markup (c : Checker F) : Step F Unit :=
  let here := c.pos.offset
  let rest := c.pos.rest
  if "<!--".toList.isPrefixOf rest then c.comment
  else if "<![CDATA[".toList.isPrefixOf rest then
    (c.report .e0703 here "a CDATA section" hintSyntax).skipPast "]]>".toList here "the CDATA section"
  else if "<?".toList.isPrefixOf rest then
    (c.report .e0703 here "a processing instruction" hintSyntax).skipPast "?>".toList here "the processing instruction"
  else if "<!".toList.isPrefixOf rest then
    c.halted .e0703 here "a DOCTYPE or other declaration (entities and external references are not allowed)" hintSyntax
  else if "</".toList.isPrefixOf rest then c.closeTag
  else andThen c.openTag fun c tag => c.opening tag

/-- The text up to the next `<`; whether there is one. -/
def between (c : Checker F) : Step F Bool :=
  (c.pos.upTo '<').bind fun next => match next with
    | none => andThen (c.text c.pos.rest c.pos.offset) fun c' _ =>
      some ({ c' with pos := ⟨c.pos.offset + byteLen c.pos.rest, []⟩ }, .ok false)
    | some (s, here) => andThen (c.text s c.pos.offset) fun c' _ => some ({ c' with pos := here }, .ok true)

def loop : Nat → Checker F → Step F Unit
  | 0, _ => none
  | fuel + 1, c => andThen c.between fun c more =>
    if more then andThen c.markup fun c _ => loop fuel c else some (c, .ok ())

/-- The byte order mark and the blanks before the declaration. -/
def lead (c : Checker F) : Option (Checker F) :=
  (if c.src.head? = some '\ufeff' then (c.pos.take 3).map Prod.snd else some c.pos).bind fun marked =>
    (marked.takeWhile isWs).map fun skipped => { c with pos := skipped.2 }

def scan (c : Checker F) : Step F Unit :=
  match byteFind (· == '\x00') c.src with
  | some nul => c.halted .e0704 nul "a NUL byte"
      "remove the NUL byte: a C string ends there, so the parser would see less than was checked"
  | none => c.lead.bind fun c => andThen c.declaration fun c _ => andThen (loop (c.pos.rest.length + 1) c) fun c _ =>
    match c.stack with
    | (name, _) :: _ => c.halted .e0704 (byteLen c.src) ("<" ++ clip name ++ "> is never closed") hintStructure
    | [] => if !c.rootSeen then c.halted .e0704 0 "the asset has no <svg> element" hintStructure else some (c, .ok ())

def finish (c : Checker F) : Checker F :=
  if maxPathsPerAsset < c.paths then
    c.report .e0706 c.excessPlace
      ("the asset has " ++ toString c.paths ++ " <path> elements; the most allowed is " ++ toString maxPathsPerAsset)
      "merge the marks into ONE <path> of subpaths (M...z M...z)"
  else if c.paths = 0 ∧ c.out.any (·.code == .e0701) = false then
    c.report .e0704 c.rootPlace "the asset has no <path>" "an asset draws its mark with <path d='...'/> inside the <svg>"
  else c

def conclude (c : Checker F) : Except (List Finding) (SvgInfo F) :=
  if c.out.isEmpty then
    match c.viewBox with
    | some viewBox => .ok ⟨viewBox, c.paths⟩
    | none => .error [⟨.e0704, c.pointer, "the asset has no usable viewBox", "give the <svg> a viewBox='0 0 24 24'"⟩]
  else .error c.out

end

end Checker

variable {F : Type} [Floats F]

/-- No answer is a slice inside a character, or a scan that does not end. -/
def checkAsset (pointer : String) (svg : Text) : Option (Except (List Finding) (SvgInfo F)) :=
  if maxAssetBytes < byteLen svg then
    some (.error [⟨.e0705, pointer,
      "the asset is " ++ toString (byteLen svg) ++ " bytes; the most allowed is " ++ toString maxAssetBytes,
      "a mask needs a few hundred bytes: simplify the outline or merge its subpaths"⟩])
  else (Checker.new pointer svg).scan.map fun (c, ended) => match ended with
    | .ok () => c.finish.conclude
    | .error .halt => c.conclude

end Svg

end PlxNative.HudFormat
