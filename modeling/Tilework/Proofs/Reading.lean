import Tilework.Proofs.Catalog
import Tilework.Proofs.Evaluation
import Tilework.Proofs.Parameters
import Tilework.Proofs.Pieces

/-!
# Reading printed trees

The name of a composite is the text of its tree: names, operators and parentheses, with single
blanks between them. Read against an ordered catalog that has the names of the leaves, the text
gives the tokens of the tree again, and nothing of it is skipped. In every text, the tokens of tile
references are entries of the catalog.
-/

namespace Tilework

namespace WordPart

theorem split_covered {catalog : Catalog} {covered : Nat} {cs : List Char}
    (h : cs.length ≤ covered) : split catalog covered cs = [] := by
  induction cs generalizing covered with
  | nil => cases covered <;> rfl
  | cons c cs ih =>
    rw [List.length_cons] at h
    obtain ⟨covered, rfl⟩ : ∃ n, covered = n + 1 := ⟨covered - 1, by omega⟩
    rw [split]
    exact ih (by omega)

theorem ofWord_name {catalog : Catalog} (h : catalog.Ordered) {name : String} {cls : TileClass}
    (hmem : (name, cls) ∈ catalog.entries) : ofWord catalog name.toList = [tile name cls] := by
  have hstart := h.longestPrefix?_self hmem
  have hlength : name.toList.length = name.length := String.length_toList
  obtain ⟨c, cs, hchars⟩ : ∃ c cs, name.toList = c :: cs :=
    List.exists_cons_of_ne_nil (h.toList_ne_nil hmem)
  rw [hchars] at hstart hlength
  rw [List.length_cons] at hlength
  rw [hchars, ofWord, split, hstart]
  simp only
  rw [split_covered (by omega)]

theorem mem_skip {name : String} {cls : TileClass} {c : Char} {parts : List WordPart} :
    tile name cls ∈ skip c parts ↔ tile name cls ∈ parts := by
  unfold skip
  split <;> simp

theorem mem_entries_of_mem_split {catalog : Catalog} {name : String} {cls : TileClass}
    {covered : Nat} {cs : List Char} (h : tile name cls ∈ split catalog covered cs) :
    (name, cls) ∈ catalog.entries := by
  induction cs generalizing covered with
  | nil => cases covered <;> cases h
  | cons c cs ih =>
    cases covered with
    | succ covered => exact ih h
    | zero =>
      rw [split] at h
      split at h
      · next other cls' hstart =>
        rcases List.mem_cons.mp h with heq | h
        · obtain ⟨rfl, rfl⟩ := WordPart.tile.inj heq
          exact List.mem_of_find?_eq_some hstart
        · exact ih h
      · exact ih (mem_skip.mp h)

end WordPart

namespace TokenStream

/-- In front of `rest`, a text is read as tokens, and nothing of it is skipped. -/
def Reads (catalog : Catalog) (cs : List Char) (tokens : List Token) (rest : List Char) : Prop :=
  ∀ start, ∃ stop,
    (ofPieces catalog start (Raw.split (cs ++ rest))).tokens =
        tokens ++ (ofPieces catalog stop (Raw.split rest)).tokens ∧
      (ofPieces catalog start (Raw.split (cs ++ rest))).skipped =
        (ofPieces catalog stop (Raw.split rest)).skipped

variable {catalog : Catalog} {cs cs' rest : List Char} {tokens tokens' : List Token}

theorem Reads.append (h : Reads catalog cs tokens (cs' ++ rest))
    (h' : Reads catalog cs' tokens' rest) :
    Reads catalog (cs ++ cs') (tokens ++ tokens') rest := by
  intro start
  obtain ⟨middle, htokens, hskipped⟩ := h start
  obtain ⟨stop, htokens', hskipped'⟩ := h' middle
  refine ⟨stop, ?_, ?_⟩
  · rw [List.append_assoc, htokens, htokens', List.append_assoc]
  · rw [List.append_assoc, hskipped, hskipped']

theorem reads_piece (piece : Raw) (h : piece.Proper)
    (hrest : ∀ c ∈ rest.head?, piece.goesOn c = false)
    (hpiece : ∀ start, (ofPiece catalog start piece).tokens = tokens ∧
      (ofPiece catalog start piece).skipped = []) : Reads catalog piece.text tokens rest := by
  intro start
  obtain ⟨htokens, hskipped⟩ := hpiece start
  refine ⟨start + utf8Length piece.text, ?_, ?_⟩
  · rw [Raw.split_text_append h hrest, ofPieces, tokens_append, htokens]
  · rw [Raw.split_text_append h hrest, ofPieces, append, hskipped, List.nil_append]

theorem reads_symbol (s : Symbol) (hrest : ∀ c ∈ rest.head?, (Raw.symbol s).goesOn c = false) :
    Reads catalog s.text [s.token] rest :=
  reads_piece (.symbol s) trivial hrest fun _ => ⟨rfl, rfl⟩

theorem reads_blank : Reads catalog [' '] [] rest :=
  reads_piece (.blank ' ') rfl (fun _ _ => rfl) fun _ => ⟨rfl, rfl⟩

theorem reads_openParen : Reads catalog ['('] [.openParen] rest :=
  reads_symbol .openParen fun _ _ => rfl

theorem reads_closeParen : Reads catalog [')'] [.closeParen] rest :=
  reads_symbol .closeParen fun _ _ => rfl

theorem reads_operator (op : Operator) :
    Reads catalog op.symbol.toList [.operator op] (' ' :: rest) := by
  refine reads_symbol (.operator op) fun c hc => ?_
  obtain rfl : ' ' = c := by simpa using hc
  exact Raw.goesOn_of_isSpace _ rfl

theorem reads_name (h : catalog.Ordered) {name : String} {cls : TileClass}
    (hmem : (name, cls) ∈ catalog.entries) (hrest : ∀ c ∈ rest.head?, isNameChar c = false) :
    Reads catalog name.toList [.tile name cls 0] rest := by
  have hparts := WordPart.ofWord_name h hmem
  refine reads_piece (.word name.toList) (h.names _ hmem) hrest fun start => ?_
  rw [ofPiece, hparts]
  exact ⟨rfl, rfl⟩

end TokenStream

namespace Expression

/-- The text of a tree over names. -/
def text : Expression String → String
  | leaf name => name
  | sizeMatched left right => Operator.sizeMatched.compositeName [left.text, right.text]
  | singleEdge left right => Operator.singleEdge.compositeName [left.text, right.text]
  | fanOut root first second =>
    Operator.fanOut.compositeName [root.text, first.text, second.text]

theorem text_node {tree : Expression String} {op : Operator} {parts : List (Expression String)}
    (h : tree.node? = some (op, parts)) : tree.text = op.compositeName (parts.map text) := by
  cases tree <;> cases h <;> rfl

/-- The name of the tile of an assembly is the text of its tree. -/
theorem name_assemble {assembly : Assembly} {tile : Tile} (h : assembly.assemble = some tile) :
    tile.name = (assembly.map (·.tile.name)).text := by
  induction h using assemble_induction with
  | leaf i => rfl
  | node assembly op parts tiles h hnode hparts hplanned ih =>
    have hnames : tiles.map (·.name) = (parts.map (map (·.tile.name))).map text := by
      rw [List.map_map, List.map_eq_flatMap, List.map_eq_flatMap]
      apply hparts.flatMap_eq
      intro part hp t ht
      rw [ih part hp t ht]
      rfl
    rw [Operator.name_merge, text_node (node?_map _ hnode), hnames]

theorem toList_compositeName (op : Operator) (first : String) {rest : List String} (h : rest ≠ []) :
    (op.compositeName (first :: rest)).toList =
      '(' :: first.toList ++ ' ' :: op.symbol.toList ++
        rest.flatMap (fun name => ' ' :: name.toList) ++ [')'] := by
  have hjoin : ∀ {rest : List String}, rest ≠ [] →
      ' ' :: (" ".intercalate rest).toList = rest.flatMap fun name => ' ' :: name.toList := by
    intro rest
    induction rest with
    | nil => exact fun hne => absurd rfl hne
    | cons second rest ih =>
      intro _
      cases rest with
      | nil => simp
      | cons third rest =>
        rw [String.intercalate_cons_cons, List.flatMap_cons, ← ih (List.cons_ne_nil _ _)]
        simp
  rw [Operator.compositeName, ← hjoin h]
  simp

theorem readsAll {catalog : Catalog} {parts : List (Expression Reference)}
    (hparts : ∀ part ∈ parts, ∀ {rest : List Char}, (∀ c ∈ rest.head?, isNameChar c = false) →
      TokenStream.Reads catalog (part.map (·.name)).text.toList part.tokens rest)
    {rest : List Char} (hrest : ∀ c ∈ rest.head?, isNameChar c = false) :
    TokenStream.Reads catalog (((parts.map (map (·.name))).map text).flatMap
      fun name => ' ' :: name.toList) (parts.flatMap tokens) rest := by
  induction parts with
  | nil => exact fun start => ⟨start, rfl, rfl⟩
  | cons part parts ih =>
    have hnext : ∀ c ∈ ((((parts.map (map (·.name))).map text).flatMap
        fun name => ' ' :: name.toList) ++ rest).head?, isNameChar c = false := by
      cases parts with
      | nil => simpa using hrest
      | cons other others =>
        intro c hc
        obtain rfl : ' ' = c := by simpa using hc
        decide
    have hown := hparts part (by simp) hnext
    have hothers := ih fun p hp => hparts p (by simp [hp])
    simpa using TokenStream.reads_blank.append (hown.append hothers)

/-- The text of a tree is read as its tokens. -/
theorem reads_text {catalog : Catalog} (h : catalog.Ordered) (tree : Expression Reference)
    (hleaves : ∀ r ∈ tree.leaves, (r.name, r.cls) ∈ catalog.entries ∧ r.param = 0)
    {rest : List Char} (hrest : ∀ c ∈ rest.head?, isNameChar c = false) :
    TokenStream.Reads catalog (tree.map (·.name)).text.toList tree.tokens rest := by
  induction tree using induction_node generalizing rest with
  | leaf r =>
    obtain ⟨hmem, hparam⟩ := hleaves r (by simp [leaves])
    rw [tokens, hparam]
    exact TokenStream.reads_name h hmem hrest
  | node tree op parts hnode ih =>
    obtain ⟨first, second, others, rfl⟩ := exists_parts hnode
    have hparts : ∀ part ∈ first :: second :: others, ∀ {rest : List Char},
        (∀ c ∈ rest.head?, isNameChar c = false) →
        TokenStream.Reads catalog (part.map (·.name)).text.toList part.tokens rest := by
      intro part hp rest hrest
      refine ih part hp (fun r hr => hleaves r ?_) hrest
      rw [leaves_node hnode]
      exact List.mem_flatMap.mpr ⟨part, hp, hr⟩
    have hclose : ∀ c ∈ (')' :: rest).head?, isNameChar c = false := by
      intro c hc
      obtain rfl : ')' = c := by simpa using hc
      decide
    have hblank : ∀ cs : List Char, ∀ c ∈ (' ' :: cs).head?, isNameChar c = false := by
      intro cs c hc
      obtain rfl : ' ' = c := by simpa using hc
      decide
    have hmore : ∀ part ∈ second :: others, ∀ {rest : List Char},
        (∀ c ∈ rest.head?, isNameChar c = false) →
        TokenStream.Reads catalog (part.map (·.name)).text.toList part.tokens rest :=
      fun part hp => hparts part (List.mem_cons_of_mem _ hp)
    have htail := (readsAll hmore hclose).append TokenStream.reads_closeParen
    have hop := (TokenStream.reads_operator op).append htail
    have hfirst := (hparts first (by simp) (hblank _)).append (TokenStream.reads_blank.append hop)
    rw [text_node (node?_map _ hnode), tokens_node hnode, List.map_cons, List.map_cons,
      toList_compositeName _ _ (by simp)]
    simpa using TokenStream.reads_openParen.append hfirst

theorem openBracket_notMem_tokens (tree : Expression Reference) :
    Token.openBracket ∉ tree.tokens := by
  induction tree with
  | leaf r => simp [tokens]
  | sizeMatched left right ihl ihr => simp [tokens, ihl, ihr]
  | singleEdge left right ihl ihr => simp [tokens, ihl, ihr]
  | fanOut root first second ihr ihf ihs => simp [tokens, ihr, ihf, ihs]

end Expression

namespace TokenStream

theorem Reads.ofText {catalog : Catalog} {text : String} {tokens : List Token}
    (h : Reads catalog text.toList tokens []) :
    (ofText catalog text).tokens = Token.fold tokens ∧ (ofText catalog text).skipped = [] := by
  obtain ⟨stop, htokens, hskipped⟩ := h 0
  have hnil : ofPieces catalog stop (Raw.split []) = {} := by
    rw [Raw.split]
    rfl
  rw [hnil, List.append_nil] at htokens hskipped
  refine ⟨?_, hskipped⟩
  rw [tokens_ofText, htokens]
  exact congrArg Token.fold (List.append_nil tokens)

theorem ofText_text {catalog : Catalog} (h : catalog.Ordered) (tree : Expression Reference)
    (hleaves : ∀ r ∈ tree.leaves, (r.name, r.cls) ∈ catalog.entries ∧ r.param = 0) :
    (ofText catalog (tree.map (·.name)).text).tokens = tree.tokens ∧
      (ofText catalog (tree.map (·.name)).text).skipped = [] := by
  have hread : Reads catalog (tree.map (·.name)).text.toList tree.tokens [] :=
    Expression.reads_text h tree hleaves (by simp)
  rw [← Token.fold_eq_self tree.openBracket_notMem_tokens]
  exact hread.ofText

end TokenStream

/-- A token that a text can give: references name entries of the catalog, and integers are not too
great. -/
def Token.Known (catalog : Catalog) : Token → Prop
  | tile name cls param => (name, cls) ∈ catalog.entries ∧ param ≤ TokenStream.greatestInteger
  | integer value => value ≤ TokenStream.greatestInteger
  | _ => True

namespace TokenStream

variable {catalog : Catalog} {start : Nat} {token : Token}

theorem mem_ofWordParts {parts : List WordPart} (h : token ∈ (ofWordParts start parts).tokens) :
    ∃ name cls, token = .tile name cls 0 ∧ .tile name cls ∈ parts := by
  induction parts generalizing start with
  | nil => cases h
  | cons part parts ih =>
    cases part with
    | tile name cls =>
      rcases List.mem_cons.mp h with rfl | h
      · exact ⟨name, cls, rfl, List.mem_cons_self⟩
      · obtain ⟨name', cls', htoken, hmem⟩ := ih h
        exact ⟨name', cls', htoken, List.mem_cons_of_mem _ hmem⟩
    | skipped cs =>
      obtain ⟨name', cls', htoken, hmem⟩ := ih h
      exact ⟨name', cls', htoken, List.mem_cons_of_mem _ hmem⟩

theorem known_of_mem_ofPiece {piece : Raw} (h : token ∈ (ofPiece catalog start piece).tokens) :
    token.Known catalog := by
  cases piece with
  | symbol s =>
    obtain rfl : token = s.token := by simpa [ofPiece, tokens] using h
    cases s <;> trivial
  | digits cs =>
    rw [ofPiece] at h
    split at h
    · next hgreatest =>
      obtain rfl := List.mem_singleton.mp h
      exact hgreatest
    · cases h
  | word cs =>
    obtain ⟨name, cls, rfl, hmem⟩ := mem_ofWordParts h
    exact ⟨WordPart.mem_entries_of_mem_split hmem, Nat.zero_le _⟩
  | blank c => cases h
  | unknown c => cases h

theorem known_of_mem_ofPieces {pieces : List Raw}
    (h : token ∈ (ofPieces catalog start pieces).tokens) : token.Known catalog := by
  induction pieces generalizing start with
  | nil => cases h
  | cons piece pieces ih =>
    rw [ofPieces, tokens_append] at h
    rcases List.mem_append.mp h with h | h
    · exact known_of_mem_ofPiece h
    · exact ih h

theorem known_of_mem_ofText {text : String} (h : token ∈ (ofText catalog text).tokens) :
    token.Known catalog := by
  obtain ⟨lexeme, hlexeme, rfl⟩ := List.mem_map.mp h
  have hknown : ∀ lexeme ∈ (ofPieces catalog 0 (Raw.split text.toList)).lexemes,
      lexeme.token.Known catalog :=
    fun lexeme hmem => known_of_mem_ofPieces (List.mem_map_of_mem hmem)
  rcases mem_attachParameters hlexeme with
    hmem | ⟨name, cls, param, n, named, _, number, _, rfl, hin⟩
  · exact hknown lexeme hmem
  · have htile := hknown ⟨.tile name cls param, named⟩ (hin.subset (by simp))
    have hinteger := hknown ⟨.integer n, number⟩ (hin.subset (by simp))
    exact ⟨htile.1, hinteger⟩

theorem mem_entries_of_mem_ofText {text : String} {name : String} {cls : TileClass} {param : Nat}
    (h : .tile name cls param ∈ (ofText catalog text).tokens) : (name, cls) ∈ catalog.entries :=
  (known_of_mem_ofText h).1

end TokenStream

end Tilework
