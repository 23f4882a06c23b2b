import Allotment.Yaml.Property
import Allotment.Yaml.Scalar.Block

namespace Allotment.Yaml

/-!
# From characters to tokens

A `Lexer` turns a document into tokens, as far as they are asked for.  Two things need the tokens
that come later:

* the indentation of a line starts and ends block collections: `Lexing.openBlock`, `Lexing.closeTo`;
* a key is known as one only when its colon is found.  `PossibleKey` remembers where a key may have
  started, and `Lexing.fetchValue` puts the missing tokens in front of it.  A key must stand on one
  line and be short.

`Lexing.peek` looks at the next token.  It reads on as long as the token waits for a key:
`Lexer.waiting` says which key each token waits for.  There is one key for each level of brackets,
and a token goes on waiting when the key of its level is replaced by a later one.
-/

/-- A place where a key may have started. -/
structure PossibleKey where
  isPossible : Bool
  /-- Whether nothing but a key can stand at the place. -/
  isRequired : Bool
  /-- The number of tokens before the key. -/
  position : Nat
  mark : Mark

/-- The greatest length of a key. -/
def keyLimit : Nat := 1024

/-- Whether a key that ends at a mark is not too long and stands on one line. -/
def PossibleKey.reaches (k : PossibleKey) (m : Mark) : Bool :=
  m.line ≤ k.mark.line && m.index ≤ k.mark.index + keyLimit

/-- The state of turning characters into tokens. -/
structure Lexer where
  reader : Reader
  /-- The tokens that were read and not yet taken. -/
  queue : List Token
  /-- The number of tokens taken. -/
  taken : Nat
  /-- The columns of the open block collections, the innermost one first. -/
  indents : List Nat
  /-- Whether a key may start here. -/
  keyAllowed : Bool
  /-- The possible key inside the innermost bracket. -/
  key : PossibleKey
  /-- The possible keys inside the other brackets, the innermost one first. -/
  outerKeys : List PossibleKey
  /-- The positions of the tokens that wait for a key, each with the number of brackets around the
      key. -/
  waiting : List (Nat × Nat)
  /-- The comments in front of the next node. -/
  comment : List Char

namespace Lexer

/-- A lexer at the start of a document. -/
def ofString (s : String) : Lexer where
  reader := .ofString s
  queue := [⟨.streamStart, .origin, .origin⟩]
  taken := 0
  indents := []
  keyAllowed := true
  key := ⟨false, false, 0, .origin⟩
  outerKeys := []
  waiting := []
  comment := []

/-- The number of open brackets. -/
def depth (l : Lexer) : Nat :=
  l.outerKeys.length

/-- Whether the next character is inside brackets. -/
def inFlow (l : Lexer) : Bool :=
  !l.outerKeys.isEmpty

/-- The place of the next character. -/
def mark (l : Lexer) : Mark :=
  l.reader.mark

/-- The position of the next token that is read. -/
def nextPosition (l : Lexer) : Nat :=
  l.taken + l.queue.length

/-- Adds a token in front of the one at a position, or at the end of the queue if that was taken
    already. -/
def insertAt (l : Lexer) (position : Nat) (t : Token) : Lexer :=
  if position < l.taken then { l with queue := l.queue ++ [t] }
  else
    let n := position - l.taken
    { l with queue := l.queue.take n ++ t :: l.queue.drop n }

/-- The possible key at a level of brackets. -/
def keyAt? (l : Lexer) (level : Nat) : Option PossibleKey :=
  if level ≤ l.depth then (l.key :: l.outerKeys)[l.depth - level]? else none

/-- Replaces the possible key at a level of brackets. -/
def setKeyAt (l : Lexer) (level : Nat) (k : PossibleKey) : Lexer :=
  match (l.key :: l.outerKeys).set (l.depth - level) k with
  | key :: outerKeys => { l with key := key, outerKeys := outerKeys }
  | [] => l

/-- Makes the token at a position wait no longer. -/
def stopWaiting (l : Lexer) (position : Nat) : Lexer :=
  { l with waiting := l.waiting.filter fun w => w.1 != position }

/-- Takes the next token. -/
def advance (l : Lexer) : Lexer :=
  { l.stopWaiting l.taken with queue := l.queue.tail, taken := l.taken + 1 }

/-- Hands the comments to a token that belong to it.  A token that ends a block has no comments in
    front. -/
def handComments (l : Lexer) (t : Token) : List Comment → Lexer
  | [] => { l with reader := { l.reader with comments := [] } }
  | c :: cs =>
    let isFront := c.placement == .inFront && !c.text.isEmpty
    if t.start.index < c.token.index || (isFront && t.kind == .blockEnd) then
      { l with reader := { l.reader with comments := c :: cs } }
    else if isFront then
      let text := if l.comment.isEmpty then c.text else l.comment ++ '\n' :: c.text
      handComments { l with comment := text } t cs
    else handComments l t cs

end Lexer

/-- Turns characters into tokens. -/
abbrev Lexing := EStateM SyntaxError Lexer

/-- Lets the reader of a lexer read. -/
def Reading.lex {α : Type} (x : Reading α) : Lexing α := fun l =>
  match x l.reader with
  | .ok a r => .ok a { l with reader := r }
  | .error e r => .error e { l with reader := r }

instance : MonadLift Reading Lexing where
  monadLift := Reading.lex

namespace Lexing

/-- The place of the next character. -/
def mark : Lexing Mark :=
  Reading.mark

/-- Fails with a problem of what starts at `start`. -/
def fail {α : Type} (problem : Problem) (start : Mark) : Lexing α :=
  (Reading.fail problem start : Reading α)

/-- Sets whether a key may start here. -/
def allowKey (isAllowed : Bool) : Lexing Unit :=
  modify fun l => { l with keyAllowed := isAllowed }

/-! ### Adding tokens -/

/-- Adds a token to the end of the queue. -/
def push (t : Token) : Lexing Unit :=
  modify fun l => { l with queue := l.queue ++ [t] }

/-- Adds the token that is read from here. -/
def pushRead (read : Reading TokenKind) : Lexing Unit := do
  let start ← mark
  let kind ← read
  push ⟨kind, start, ← mark⟩

/-- Adds a token of `n` characters of a line. -/
def pushChars (n : Nat) (kind : TokenKind) : Lexing Unit :=
  pushRead do
    Reading.skipMany n
    pure kind

/-! ### Indentation -/

/-- Starts a block collection in a column that is deeper than the open ones.  Its token goes in
    front of the token at a position. -/
def openBlock (kind : TokenKind) (position : Nat) (m : Mark) : Lexing Unit := do
  let l ← get
  if !l.inFlow && l.indents.head?.all fun n => n < m.column then
    set { l with indents := m.column :: l.indents }
    if depthLimit ≤ l.indents.length then fail .tooDeep l.key.mark
    modify fun l => l.insertAt position ⟨kind, m, m⟩

/-- Where a block ends whose column is given: at the start of the first comment after it that is in
    its column, or else at the mark `m`. -/
def blockStop (column : Nat) (m : Mark) (stopIndex : Nat) : List Comment → Mark
  | [] => m
  | c :: cs =>
    if c.stopIndex < stopIndex then m
    else blockStop column (if c.start.column == column + 1 then c.start else m) c.scanIndex cs

/-- The tokens that end blocks in some columns, at a mark. -/
def blockEnds (comments : List Comment) (m : Mark) : List Nat → List Token
  | [] => []
  | column :: columns =>
    let m := blockStop column m m.index comments
    ⟨.blockEnd, m, m⟩ :: blockEnds comments m columns

/-- Ends the block collections whose columns pass a test.  The token before them ends at a mark. -/
def closeWhere (ends : Nat → Bool) (m : Mark) : Lexing Unit :=
  modify fun l =>
    if l.inFlow then l
    else
      let ended := l.indents.takeWhile ends
      let tokens := blockEnds l.reader.comments.reverse { m with index := m.index - 1 } ended
      { l with queue := l.queue ++ tokens, indents := l.indents.drop ended.length }

/-- Ends the block collections in deeper columns. -/
def closeTo (column : Nat) (m : Mark) : Lexing Unit :=
  closeWhere (fun n => column < n) m

/-- Ends all block collections. -/
def closeAll : Lexing Unit := do
  closeWhere (fun _ => true) (← mark)

/-! ### Possible keys -/

/-- Forgets the possible key; it is an error if it is required. -/
def dropKey : Lexing Unit := do
  let l ← get
  if l.key.isPossible then
    if l.key.isRequired then fail .missingColon l.key.mark
    modify fun l => { l with key := { l.key with isPossible := false } }.stopWaiting l.key.position

/-- Remembers that a key may start at the next token, which waits for it. -/
def saveKey : Lexing Unit := do
  let l ← get
  if l.keyAllowed then
    let isRequired := !l.inFlow && l.indents.head? == some l.mark.column
    let key : PossibleKey := ⟨true, isRequired, l.nextPosition, l.mark⟩
    dropKey
    modify fun l =>
      { l.stopWaiting key.position with
        key := key
        waiting := (key.position, l.depth) :: (l.stopWaiting key.position).waiting }

/-- Whether the possible key at a level can still get its colon.  If not, it is forgotten, but
    tokens go on waiting for the key of the level.  It is an error if it is required. -/
def isAlive (level : Nat) : Lexing Bool := do
  match (← get).keyAt? level with
  | none => pure false
  | some k =>
    if !k.isPossible then pure false
    else if k.reaches (← mark) then pure true
    else
      if k.isRequired then fail .missingColon k.mark
      modify fun l => l.setKeyAt level { k with isPossible := false }
      pure false

/-! ### Indicators -/

/-- Reads the end of the document. -/
def fetchEnd : Lexing Unit := do
  modify fun l =>
    if l.mark.column == 0 then l
    else { l with reader := { l.reader with mark := ⟨l.mark.line + 1, 0, l.mark.index⟩ } }
  closeAll
  dropKey
  allowKey false
  pushChars 0 .streamEnd

/-- Reads a directive, or a line that starts or ends a document. -/
def fetchOutside (read : Lexing Unit) : Lexing Unit := do
  closeAll
  dropKey
  allowKey false
  read

/-- Reads an opening bracket, which may start a key and may be followed by one. -/
def fetchOpening (kind : TokenKind) : Lexing Unit := do
  saveKey
  modify fun l =>
    { l with key := ⟨false, false, l.nextPosition, l.mark⟩, outerKeys := l.key :: l.outerKeys }
  if depthLimit < (← get).depth then fail .tooDeep (← mark)
  allowKey true
  pushChars 1 kind

/-- Reads a closing bracket.  The token that waits for the key inside the bracket waits no
    longer. -/
def fetchClosing (kind : TokenKind) : Lexing Unit := do
  dropKey
  modify fun l =>
    match l.outerKeys with
    | k :: ks => { l.stopWaiting l.key.position with key := k, outerKeys := ks }
    | [] => l
  allowKey false
  pushChars 1 kind

/-- Reads a comma between the items in brackets. -/
def fetchFlowEntry : Lexing Unit := do
  dropKey
  allowKey true
  pushChars 1 .flowEntry

/-- Sees to it that an indicator of a block collection can stand here, and starts the collection. -/
def startBlock (kind : TokenKind) (problem : Problem) : Lexing Unit := do
  let l ← get
  if !l.inFlow && !l.keyAllowed then fail problem l.mark
  openBlock kind l.nextPosition l.mark

/-- Reads the dash of a list item. -/
def fetchBlockEntry : Lexing Unit := do
  startBlock .blockListStart .entryNotAllowed
  dropKey
  allowKey true
  pushChars 1 .blockEntry

/-- Reads the question mark in front of a key. -/
def fetchKey : Lexing Unit := do
  startBlock .blockMapStart .keyNotAllowed
  dropKey
  allowKey !(← get).inFlow
  pushChars 1 .key

/-- Reads the colon in front of a value.  If it ends a possible key, the tokens of the key are put
    in front of that; otherwise the key was started by a question mark or is left out. -/
def fetchValue : Lexing Unit := do
  if ← isAlive (← get).depth then
    let k := (← get).key
    modify fun l => l.insertAt k.position ⟨.key, k.mark, k.mark⟩
    openBlock .blockMapStart k.position k.mark
    modify fun l => { l with key := { k with isPossible := false } }.stopWaiting k.position
    allowKey false
  else
    startBlock .blockMapStart .valueNotAllowed
    allowKey !(← get).inFlow
  pushChars 1 .value

/-! ### Scalars and properties -/

/-- Reads a token that may start a key, and cannot be followed by one. -/
def fetchWord (read : Reading TokenKind) : Lexing Unit := do
  saveKey
  allowKey false
  pushRead read

/-- Reads a plain scalar; a key may follow it on a later line. -/
def fetchPlain : Lexing Unit := do
  saveKey
  allowKey false
  let l ← get
  let margin := match l.indents with
    | n :: _ => n + 1
    | [] => 0
  let (text, hasBreak) ← readPlain ⟨l.inFlow, margin⟩
  if hasBreak then allowKey true
  push ⟨.scalar true text, l.mark, ← mark⟩

/-- Reads a block scalar, which cannot be a key. -/
def fetchBlockScalar : Lexing Unit := do
  dropKey
  allowKey true
  let l ← get
  pushRead do
    pure (.scalar false (← readBlockScalar l.indents.head?))

/-- Reads a scalar between quotes. -/
def fetchQuoted (quote : Char) : Lexing Unit :=
  fetchWord do
    pure (.scalar false (← readQuoted quote))

/-- Reads the token that starts with a character, given the one after it. -/
def fetchFrom (c d : Char) : Lexing Unit := do
  let inFlow := (← get).inFlow
  if c == '[' then fetchOpening .flowListStart
  else if c == '\x7b' then fetchOpening .flowMapStart
  else if c == ']' then fetchClosing .flowListEnd
  else if c == '\x7d' then fetchClosing .flowMapEnd
  else if c == ',' then fetchFlowEntry
  else if c == '-' && endsWord d then fetchBlockEntry
  else if c == '?' && (inFlow || endsWord d) then fetchKey
  else if c == ':' && (inFlow || endsWord d) then fetchValue
  else if c == '*' then fetchWord do pure (.aliasOf (← readName))
  else if c == '&' then fetchWord do pure (.anchor (← readName))
  else if c == '!' then fetchWord readTag
  else if (c == '|' || c == '>') && !inFlow then fetchBlockScalar
  else if c == '\'' || c == '"' then fetchQuoted c
  else if startsPlain inFlow c d then fetchPlain
  else fail .badStart (← mark)

/-! ### Between tokens -/

/-- The last token that was read, and the one before it. -/
def lastTokens (l : Lexer) : Option Token × Option Token :=
  match l.queue.reverse with
  | t :: u :: _ => (some t, some u)
  | [t] => (some t, none)
  | [] => (none, none)

/-- Passes over spaces, and over tabs where `tabs` says so. -/
def skipSpaces (tabs : Bool) : Reading Unit :=
  Reading.skipWhile fun c => c == ' ' || (tabs && c == '\t')

/-- Moves the comment behind an indicator to the front of the list item after it. -/
def moveComment : Lexing Unit := do
  let c ← Reading.next
  modify fun l =>
    match lastTokens l, l.reader.comments.reverse with
    | (some t, some u), k :: ks =>
      if t.kind == .blockEntry && u.kind == .blockListStart && k.placement == .behind &&
          !isBreak c then
        let token := if k.start.line + 1 == l.mark.line then l.mark else k.token
        let comments := ({ k with placement := .inFront, token := token } :: ks).reverse
        { l with reader := { l.reader with comments := comments } }
      else l
    | _, _ => l

/-- Passes over comments that follow the mark `scan`. -/
def skipComments (scan : Mark) : Lexing Unit := do
  let l ← get
  let token : Option Token := match lastTokens l with
    | (some t, some u) => if t.kind == .flowEntry then some u else some t
    | (t, _) => t
  let breaks := l.reader.breaks
  let nextLine := l.mark.line + 1 - breaks + if breaks == 0 && 1 < l.mark.column then 1 else 0
  Comment.readBetween
    { inFlow := l.inFlow
      margin := l.indents.headD 0
      afterValue := token.any fun t => t.kind == .value
      nextLine := if 0 < scan.column then some nextLine else none
      isNear := breaks ≤ 1 }
    scan ((token.map Token.start).getD .origin)

/-- Passes over blanks, line ends and comments that follow the mark `scan`; `fuel` bounds the number
    of lines.  The start of a line is passed over too while the window starts at a byte order
    mark. -/
def skipBetween (scan : Mark) (fuel : Nat) : Lexing Unit :=
  match fuel with
  | 0 => pure ()
  | fuel + 1 => do
    Reading.ensure 1
    let l ← get
    if l.mark.column == 0 && l.reader.window.startsAtMark then Reading.skip
    skipSpaces (l.inFlow || !l.keyAllowed)
    moveComment
    if (← Reading.next) == '#' then skipComments scan
    if isBreak (← Reading.next) then
      Reading.skipLineEnd
      if !l.inFlow then allowKey true
      skipBetween scan fuel

/-! ### Taking tokens -/

/-- Reads the next token, with those that the indentation of its line calls for, and a comment
    behind it.  A comment behind the dash of a list item belongs to the item. -/
def fetch : Lexing Unit := do
  Reading.ensure 1
  let scan ← mark
  skipBetween scan (← Reading.bound)
  closeTo (← mark).column scan
  Reading.ensure 4
  let c ← Reading.next
  let l ← get
  if c == ending then fetchEnd
  else if l.mark.column == 0 && c == '%' then fetchOutside (pushRead readDirective)
  else if ← Reading.startsRule '-' then fetchOutside (pushChars 3 .documentStart)
  else if ← Reading.startsRule '.' then fetchOutside (pushChars 3 .documentEnd)
  else
    let isJoined := if l.inFlow then c == ',' else c == ':'
    let owner := match (lastTokens l).1 with
      | some t => if isJoined then t.start else l.mark
      | none => l.mark
    fetchFrom c (← Reading.look 1)
    if !(lastTokens (← get)).1.any fun t => t.kind == .blockEntry then Comment.readBehind owner

/-- The number of tokens that are read ahead. -/
def readAhead : Nat := 3

/-- Whether the next token is settled: enough tokens are read, and it does not wait for a key. -/
def isSettled : Lexing Bool := do
  let l ← get
  if l.queue.length < readAhead then pure false
  else
    match l.waiting.lookup l.taken with
    | none => pure true
    | some level => pure !(← isAlive level)

/-- Reads tokens until the next one is settled; `fuel` bounds their number. -/
def settle (fuel : Nat) : Lexing Unit :=
  match fuel with
  | 0 => pure ()
  | fuel + 1 => do
    if !(← isSettled) then
      fetch
      settle fuel

/-- The next token, with the comments in front of it. -/
def peek : Lexing Token := do
  settle ((← Reading.bound) + 2 * readAhead)
  let l ← get
  let t := l.queue.headD ⟨.streamEnd, l.mark, l.mark⟩
  set (l.handComments t l.reader.comments)
  pure t

/-- Takes the next token. -/
def advance : Lexing Unit :=
  modify Lexer.advance

end Lexing

end Allotment.Yaml
