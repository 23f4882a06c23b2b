import Allotment.Yaml.Lexer
import Allotment.Yaml.Node

namespace Allotment.Yaml

/-!
# From tokens to nodes

`Document.parse` reads the first document of a text; a text without a document gives none.

The collections that are open are kept on a stack of frames, the innermost one first.  A frame holds
what was read of its collection, and what comes next in it.  `Parsing.resume` reads on in the
innermost frame: it finishes a node, which is handed to the frame around it, or opens another frame.

Errors that were passed over when tokens were read come up after each of these steps.
-/

/-- What stands in front of a collection. -/
structure Opening where
  /-- Where the properties of the collection start. -/
  start : Mark
  tag : Option String
  anchor : Option Nat

/-- What comes next in a map. -/
inductive Turn where
  | key
  /-- A key without an indicator in front of it. -/
  | loneKey
  | value (key : Node)
  /-- The value after a key without an indicator. -/
  | loneValue (key : Node)
  /-- The end of a map of one entry. -/
  | stop (key value : Node)

/-- A collection that is open, and where it starts; what was read of it has the last part first. -/
inductive Frame where
  | blockList (o : Opening) (mark : Mark) (items : List Node)
  /-- A list in the column of the map around it. -/
  | hangingList (o : Opening) (items : List Node)
  | blockMap (o : Opening) (mark : Mark) (entries : List (Node × Node)) (turn : Turn)
  | flowList (o : Opening) (mark : Mark) (items : List Node)
  /-- A map of one entry that is an item of a list. -/
  | flowPair (mark : Mark) (turn : Turn)
  | flowMap (o : Opening) (mark : Mark) (entries : List (Node × Node)) (turn : Turn)

/-- The entries of a map and what comes next in it, after a part of it was read. -/
def Turn.add (entries : List (Node × Node)) (n : Node) : Turn → List (Node × Node) × Turn
  | .key => (entries, .value n)
  | .loneKey => (entries, .loneValue n)
  | .value k => ((k, n) :: entries, .key)
  | .loneValue k => ((k, n) :: entries, .key)
  | .stop k v => (entries, .stop k v)

/-- A frame after a part of its collection was read. -/
def Frame.add (n : Node) : Frame → Frame
  | .blockList o mark items => .blockList o mark (n :: items)
  | .hangingList o items => .hangingList o (n :: items)
  | .blockMap o mark entries turn =>
    let (entries, turn) := turn.add entries n
    .blockMap o mark entries turn
  | .flowList o mark items => .flowList o mark (n :: items)
  | .flowPair mark (.value k) => .flowPair mark (.stop k n)
  | .flowPair mark _ => .flowPair mark (.value n)
  | .flowMap o mark entries turn =>
    let (entries, turn) := turn.add entries n
    .flowMap o mark entries turn

/-- A name for a node; it has no node as long as that is being read. -/
structure Anchor where
  name : String
  node : Option Node

/-- The state of reading a document. -/
structure Parser where
  lexer : Lexer
  frames : List Frame
  /-- The anchors in the order of their places. -/
  anchors : Array Anchor
  /-- The number of aliases. -/
  aliases : Nat
  /-- What the handles of tags stand for. -/
  handles : List (String × String)

/-- A parser at the start of a document. -/
def Parser.ofString (s : String) : Parser :=
  ⟨.ofString s, [], #[], 0, []⟩

/-- Turns tokens into nodes. -/
abbrev Parsing := EStateM SyntaxError Parser

/-- Lets the lexer of a parser read. -/
def Lexing.parse {α : Type} (x : Lexing α) : Parsing α := fun p =>
  match x p.lexer with
  | .ok a l => .ok a { p with lexer := l }
  | .error e l => .error e { p with lexer := l }

instance : MonadLift Lexing Parsing where
  monadLift := Lexing.parse

namespace Parsing

/-! ### Tokens -/

/-- The next token. -/
def peek : Parsing Token :=
  Lexing.peek

/-- The next token, unless reading it fails; that is passed over. -/
def peek? : Parsing (Option Token) := fun p =>
  match peek p with
  | .ok t p => .ok (some t) p
  | .error _ p => .ok none p

/-- Takes the next token. -/
def advance : Parsing Unit :=
  Lexing.advance

/-- Takes the next token and looks at the one after it. -/
def next : Parsing Token := do
  advance
  peek

/-- Fails with a problem found at a token, in what starts at `start`. -/
def fail {α : Type} (problem : Problem) (start : Option Mark) (t : Token) : Parsing α := fun p =>
  let (e, r) := p.lexer.reader.blame problem start (some t.start)
  .error e { p with lexer := { p.lexer with reader := r } }

/-- Fails if an error was passed over. -/
def checkTrouble : Parsing Unit := do
  if let some e := (← get).lexer.reader.trouble then throw e

/-- Forgets the comments in front of a node. -/
def clearComment : Parsing Unit :=
  modify fun p => { p with lexer := { p.lexer with comment := [] } }

/-- A scalar without text at a mark. -/
def absentAt (m : Mark) : Node :=
  .absent (m.line + 1)

/-! ### Frames -/

/-- Puts a frame on the stack. -/
def push (f : Frame) : Parsing Unit :=
  modify fun p => { p with frames := f :: p.frames }

/-- Takes the innermost frame off the stack. -/
def pop : Parsing Unit :=
  modify fun p => { p with frames := p.frames.tail }

/-- Replaces the innermost frame. -/
def replace (f : Frame) : Parsing Unit := do
  pop
  push f

/-! ### Properties -/

/-- Names the node that is about to be read. -/
def addAnchor : Option String → Parsing (Option Nat)
  | none => pure none
  | some name => do
    let k := (← get).anchors.size
    modify fun p => { p with anchors := p.anchors.push ⟨name, none⟩ }
    pure (some k)

/-- Gives an anchor its node. -/
def setAnchor (anchor : Option Nat) (n : Node) : Parsing Unit :=
  match anchor with
  | none => pure ()
  | some k =>
    modify fun p => { p with anchors := p.anchors.modify k fun a => { a with node := some n } }

/-- An alias of the node that a name stands for: the last one with the name. -/
def named (line : Nat) (name : String) : Parsing Node := do
  let p ← get
  match (List.range p.anchors.size).reverse.find? fun k =>
      p.anchors[k]?.any fun a => a.name == name with
  | none => throw (.general (.unknownAnchor name))
  | some k =>
    set { p with aliases := p.aliases + 1 }
    pure (.aliasOf line name p.aliases k)

/-- The full name of a tag with a handle. -/
def tagOf (start : Mark) (t : Token) (handle suffix : String) : Parsing String := do
  if handle.isEmpty then pure suffix
  else
    match (← get).handles.lookup handle with
    | some stem => pure (stem ++ suffix)
    | none => fail .undefinedTagHandle (some start) t

/-- The properties in front of a node. -/
structure Properties where
  anchor : Option String
  tag : Option (Token × String × String)

/-- Reads the properties in front of a node, in either order, and the token after them. -/
def readProperties (t : Token) : Parsing (Properties × Token) := do
  match t.kind with
  | .anchor name =>
    let u ← next
    match u.kind with
    | .tag handle suffix => pure (⟨some name, some (u, handle, suffix)⟩, ← next)
    | _ => pure (⟨some name, none⟩, u)
  | .tag handle suffix =>
    let u ← next
    match u.kind with
    | .anchor name => pure (⟨some name, some (t, handle, suffix)⟩, ← next)
    | _ => pure (⟨none, some (t, handle, suffix)⟩, u)
  | _ => pure (⟨none, none⟩, t)

/-- The tag of a node with a written tag; an exclamation mark alone does not count. -/
def writtenTag (tag : Option String) (default : Tag) : Tag :=
  match tag with
  | some "!" => default
  | some s => .ofName s
  | none => default

/-! ### Reading a node -/

/-- Opens a collection, of which the first token is next. -/
def openCollection (f : Frame) : Parsing (Option Node) := do
  advance
  push f
  pure none

/-- Reads an alias. -/
def readAlias (t : Token) (name : String) : Parsing (Option Node) := do
  clearComment
  advance
  checkTrouble
  some <$> named (t.start.line + 1) name

/-- Reads a scalar with its properties before it. -/
def readScalar (o : Opening) (default : Tag) (text : String) : Parsing (Option Node) := do
  let n := Node.scalar (o.start.line + 1) (writtenTag o.tag default) text
  setAnchor o.anchor n
  pure (some n)

/-- Reads a node that is no alias.  A collection is only opened. -/
def readNode (inBlock mayHang : Bool) (first : Token) : Parsing (Option Node) := do
  let (properties, t) ← readProperties first
  let tag ← properties.tag.mapM fun (u, handle, suffix) => tagOf first.start u handle suffix
  let o : Opening := ⟨first.start, tag, ← addAnchor properties.anchor⟩
  match t.kind, inBlock, mayHang with
  | .blockEntry, _, true =>
    push (.hangingList o [])
    pure none
  | .scalar isPlain text, _, _ =>
    clearComment
    advance
    readScalar o (if isPlain then plainTag text else .str) text
  | .flowListStart, _, _ =>
    clearComment
    openCollection (.flowList o t.start [])
  | .flowMapStart, _, _ =>
    clearComment
    openCollection (.flowMap o t.start [] .key)
  | .blockListStart, true, _ => openCollection (.blockList o t.start [])
  | .blockMapStart, true, _ => openCollection (.blockMap o t.start [] .key)
  | _, _, _ =>
    if properties.anchor.isSome || properties.tag.isSome then readScalar o .null ""
    else fail .expectedContent (some first.start) t

/-- Reads a node.  A collection is only opened; it can be a block collection, or a hanging list,
    where that is allowed. -/
def read (inBlock mayHang : Bool) : Parsing (Option Node) := do
  let t ← peek
  match t.kind with
  | .aliasOf name => readAlias t name
  | _ => readNode inBlock mayHang t

/-! ### Reading on in a collection -/

/-- Ends a list. -/
def endList (o : Opening) (items : List Node) : Parsing (Option Node) := do
  let n := Node.list (o.start.line + 1) (writtenTag o.tag .seq) items.reverse
  setAnchor o.anchor n
  pop
  pure (some n)

/-- Ends a map. -/
def endMap (o : Opening) (entries : List (Node × Node)) : Parsing (Option Node) := do
  let n := Node.map (o.start.line + 1) (writtenTag o.tag .map) entries.reverse
  setAnchor o.anchor n
  pop
  pure (some n)

/-- Passes over the indicator of a part of a collection, and reads the part, unless the token after
    the indicator says that it is left out.  Where an absent part stands is told by `place`. -/
def readAfter (ends : List TokenKind) (inBlock mayHang : Bool) (place : Token → Mark) :
    Parsing (Option Node) := do
  let u ← next
  if ends.contains u.kind then pure (some (absentAt (place u))) else read inBlock mayHang

/-- Splits the comments in front of a list item from those in front of the collection that is the
    item, of which the first one is `n` characters long.  An error on the way is passed over. -/
def splitComment (n : Nat) : Parsing Unit := do
  if n != 0 then
    if (← peek?).any fun t => t.kind.startsBlock then
      modify fun p => { p with lexer := { p.lexer with comment := p.lexer.comment.drop (n + 1) } }

/-- Reads a list item after its dash. -/
def readItem (dash : Token) (ends : List TokenKind) : Parsing (Option Node) := do
  let n := (← get).lexer.comment.length
  advance
  splitComment n
  let t ← peek
  if ends.contains t.kind then pure (some (absentAt dash.stop)) else read true false

/-- Reads on in a block list: a dash, or its end. -/
def resumeBlockList (o : Opening) (mark : Mark) (items : List Node) : Parsing (Option Node) := do
  let t ← peek
  match t.kind with
  | .blockEntry => readItem t [.blockEntry, .blockEnd]
  | .blockEnd =>
    advance
    endList o items
  | _ => fail .expectedDash (some mark) t

/-- Reads on in a hanging list, which ends where there is no dash. -/
def resumeHangingList (o : Opening) (items : List Node) : Parsing (Option Node) := do
  let t ← peek
  match t.kind with
  | .blockEntry => readItem t [.blockEntry, .key, .value, .blockEnd]
  | _ => endList o items

/-- Reads on in a block map: a key, a value, or its end. -/
def resumeBlockMap (o : Opening) (mark : Mark) (entries : List (Node × Node)) (turn : Turn) :
    Parsing (Option Node) := do
  let t ← peek
  match turn, t.kind with
  | .value _, .value => readAfter [.key, .value, .blockEnd] true true fun _ => t.stop
  | .value _, _ => pure (some (absentAt t.start))
  | _, .key => readAfter [.key, .value, .blockEnd] true true fun _ => t.stop
  | _, .blockEnd =>
    clearComment
    advance
    endMap o entries
  | _, _ => fail .expectedKey (some mark) t

/-- Passes over the comma between two parts of a flow collection, and gives the token after it; in
    front of the first part there is none. -/
def skipComma (isFirst : Bool) (stop : TokenKind) (problem : Problem) (mark : Mark) :
    Parsing Token := do
  let t ← peek
  if isFirst || t.kind == stop then pure t
  else if t.kind == .flowEntry then next
  else fail problem (some mark) t

/-- Reads on in a flow list: an item, a map of one entry, or its end. -/
def resumeFlowList (o : Opening) (mark : Mark) (items : List Node) : Parsing (Option Node) := do
  let t ← skipComma items.isEmpty .flowListEnd .expectedListEnd mark
  match t.kind with
  | .flowListEnd =>
    clearComment
    advance
    endList o items
  | .key => openCollection (.flowPair t.start .key)
  | _ => read false false

/-- Reads on in a map of one entry.  A token in place of its key is passed over. -/
def resumeFlowPair (mark : Mark) (turn : Turn) : Parsing (Option Node) := do
  let t ← peek
  match turn, t.kind with
  | .stop k v, _ =>
    pop
    pure (some (.map (mark.line + 1) .map [(k, v)]))
  | .value _, .value => readAfter [.flowEntry, .flowListEnd] false false fun _ => t.start
  | .value _, _ => pure (some (absentAt t.start))
  | _, kind =>
    if [.value, .flowEntry, .flowListEnd].contains kind then
      advance
      pure (some (absentAt t.stop))
    else read false false

/-- Reads on in a flow map: a key, a value, or its end. -/
def resumeFlowMap (o : Opening) (mark : Mark) (entries : List (Node × Node)) (turn : Turn) :
    Parsing (Option Node) := do
  match turn with
  | .value _ =>
    let t ← peek
    if t.kind == .value then readAfter [.flowEntry, .flowMapEnd] false false Token.start
    else pure (some (absentAt t.start))
  | .loneValue _ => pure (some (absentAt (← peek).start))
  | _ =>
    let t ← skipComma entries.isEmpty .flowMapEnd .expectedMapEnd mark
    match t.kind with
    | .flowMapEnd =>
      clearComment
      advance
      endMap o entries
    | .key => readAfter [.value, .flowEntry, .flowMapEnd] false false Token.start
    | _ =>
      replace (.flowMap o mark entries .loneKey)
      read false false

/-- Reads on in the innermost frame. -/
def resume : Parsing (Option Node) := do
  match (← get).frames with
  | [] => pure none
  | .blockList o mark items :: _ => resumeBlockList o mark items
  | .hangingList o items :: _ => resumeHangingList o items
  | .blockMap o mark entries turn :: _ => resumeBlockMap o mark entries turn
  | .flowList o mark items :: _ => resumeFlowList o mark items
  | .flowPair mark turn :: _ => resumeFlowPair mark turn
  | .flowMap o mark entries turn :: _ => resumeFlowMap o mark entries turn

/-- Reads on until a node is finished outside of all frames.  `finished` is a node that was finished
    last; `fuel` bounds the number of steps. -/
def run (fuel : Nat) (finished : Option Node) : Parsing Node := do
  match fuel, finished, (← get).frames with
  | _, some n, [] => pure n
  | 0, _, _ => throw (.general .tooDeep)
  | fuel + 1, finished, _ =>
    if let some n := finished then
      modify fun p => { p with frames := p.frames.head?.toList.map (Frame.add n) ++ p.frames.tail }
    let finished ← resume
    checkTrouble
    run fuel finished

/-! ### Documents -/

/-- The handles that need no directive. -/
def standardHandles : List (String × String) :=
  [("!", "!"), ("!!", Tag.standardStem)]

/-- Whether a token is a directive. -/
def isDirective : TokenKind → Bool
  | .version _ _ => true
  | .tagHandle _ _ => true
  | _ => false

/-- Whether a document without content ends at a token. -/
def endsDocument (kind : TokenKind) : Bool :=
  isDirective kind || [.documentStart, .documentEnd, .streamEnd].contains kind

/-- Reads the directives in front of a document, and the token after them; `fuel` bounds their
    number. -/
def readDirectives (fuel : Nat) (hasVersion : Bool) (t : Token) : Parsing Token := do
  match fuel, t.kind with
  | fuel + 1, .version major minor =>
    if hasVersion then fail .secondVersion none t
    if major != 1 || minor != 1 then fail .otherVersion none t
    readDirectives fuel true (← next)
  | fuel + 1, .tagHandle handle stem =>
    if ((← get).handles.lookup handle).isSome then fail .secondTagHandle none t
    modify fun p => { p with handles := (handle, stem) :: p.handles }
    readDirectives fuel hasVersion (← next)
  | _, _ => pure t

/-- A reversed text up to an empty line, if there is one. -/
def untilEmptyLine? : List Char → Option (List Char)
  | '\n' :: '\n' :: _ => some []
  | c :: t => (untilEmptyLine? t).map fun front => c :: front
  | [] => none

/-- The comments in front of the first node, given those in front of a document: an empty line ends
    the comments of the document. -/
def afterEmptyLine (comment : List Char) : List Char :=
  match comment.reverse with
  | '\n' :: _ => []
  | r => ((untilEmptyLine? r).map List.reverse).getD comment

/-- Reads the start of a document without directives. -/
def startImplicit : Parsing Unit :=
  modify fun p =>
    { p with
      handles := standardHandles
      lexer := { p.lexer with comment := afterEmptyLine p.lexer.comment } }

/-- Reads the directives in front of a document and the line that starts it. -/
def startExplicit (t : Token) : Parsing Unit := do
  let t ← readDirectives (← (Reading.bound : Lexing Nat)) false t
  if t.kind != .documentStart then fail .expectedDocument none t
  modify fun p => { p with handles := p.handles ++ standardHandles }
  advance

/-- Reads the root of a document as far as it can be read without its parts; without a document
    there is none. -/
def readRoot : Parsing (Option (Option Node)) := do
  let t ← peek
  if t.kind == .streamEnd then
    checkTrouble
    pure none
  else if isDirective t.kind || t.kind == .documentStart then
    startExplicit t
    checkTrouble
    let u ← peek
    if endsDocument u.kind then pure (some (some (absentAt u.start)))
    else some <$> read true false
  else
    startImplicit
    checkTrouble
    some <$> read true false

/-- A bound on the steps that the tokens of a document can take. -/
def stepBound : Parsing Nat := do
  pure (40 * ((← (Reading.bound : Lexing Nat)) + 4))

/-- Reads a document, and the token after it. -/
def readDocument : Parsing (Option Document) := do
  let _ ← peek
  advance
  checkTrouble
  match ← readRoot with
  | none => pure none
  | some finished =>
    checkTrouble
    let root ← run (← stepBound) finished
    let _ ← peek
    checkTrouble
    let p ← get
    let anchored := p.anchors.map fun a => a.node.getD (.absent 0)
    pure (some ⟨root, anchored, p.aliases⟩)

end Parsing

/-- Reads the first document of a text. -/
def Document.parse (s : String) : Except SyntaxError (Option Document) :=
  match Parsing.readDocument (.ofString s) with
  | .ok d _ => .ok d
  | .error e _ => .error e

end Allotment.Yaml
