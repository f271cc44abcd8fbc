import CountedBTree.Scalar.Sample
import CountedBTree.Session.Registers
import CountedBTree.Session.Reply
import CountedBTree.Text.Listing

/-!
# Sessions on dictionaries

A session on dictionaries makes, copies, writes and reads named dictionaries, and
keeps named bookmarks that they issue. Every write takes the next unused stamp, so
no two states of any dictionary in the session share one, copies apart.
-/

namespace CountedBTree

/-- Which bookmark a dictionary should issue. -/
inductive BookmarkRequest (κ : Type) where
  | start
  | finish
  | offset (offset : Nat)
  /-- The first entry with an equal key, if there is one. -/
  | key (key : κ)
  | after (bookmark : String)
  | before (bookmark : String)
  | jump (bookmark : String) (steps : Int)
  /-- A jump that gives none when it would pass the limit. -/
  | jumpWithin (bookmark : String) (steps : Int) (limit : String)
  deriving Repr

/-- What can be asked of a dictionary. -/
inductive DictionaryQuery (κ : Type) where
  | offsetOf (bookmark : String)
  | distance (start stop : String)
  | entryAtBookmark (bookmark : String)
  | walk (steps : Nat) (backwards : Bool)
  | extent
  | find (key : κ)
  | contains (key : κ)
  | get (key : κ)
  | min
  | max
  | entryAt (offset : Nat)
  | entries
  | listing (lines : Bool)
  | sweep (pulls : List Pull)
  | drain (pulls : List Pull)
  | keys (pulls : List Pull)
  | values (pulls : List Pull)
  | sweepBetween (low high : Bound κ) (pulls : List Pull)

/-- A command to a session on dictionaries. -/
inductive DictionaryCommand (κ ν : Type) where
  /-- Make an empty dictionary. -/
  | create (name : String) (capacities : Capacities)
  /-- Make a dictionary by mapping keys one after the other. -/
  | build (name : String) (entries : List (κ × ν))
  /-- Make a dictionary from entries whose keys are taken to be distinct. -/
  | buildDistinct (name : String) (entries : List (κ × ν))
  /-- Make a dictionary from the entries of a run in the same way. -/
  | buildSample (name : String) (run : SampleRun)
  /-- Make a name stand for a copy of a dictionary. -/
  | copy (name source : String)
  | insert (name : String) (key : κ) (value : ν)
  /-- Map several keys without saying what was replaced. -/
  | extend (name : String) (entries : List (κ × ν))
  /-- Map the keys of a run and count what was replaced. -/
  | fill (name : String) (run : SampleRun)
  /-- Write to the entry of a key, changing its value if one is given. -/
  | change (name : String) (key : κ) (value : Option ν)
  | setValueAt (name bookmark : String) (value : ν)
  | clear (name : String)
  /-- Have a dictionary issue a bookmark and store it. -/
  | issue (name : String) (request : BookmarkRequest κ) (target : String)
  | copyBookmark (bookmark target : String)
  | orderBookmarks (first second : String)
  | equalBookmarks (first second : String)
  /-- Whether two dictionaries hold one root. -/
  | same (first second : String)
  /-- Whether two dictionaries have equal entries. -/
  | equal (first second : String)
  | ask (name : String) (query : DictionaryQuery κ)

/-- A session on dictionaries. -/
structure DictionarySession (κ ν : Type) where
  /-- The named dictionaries. -/
  dictionaries : Registers (Dictionary κ ν)
  /-- The named bookmarks. -/
  bookmarks : Registers (Bookmark κ ν)
  /-- The next stamp to hand out. -/
  fresh : Stamp
  deriving Repr

namespace DictionarySession

variable {κ ν : Type}

/-- A session without dictionaries and bookmarks. -/
def empty : DictionarySession κ ν := ⟨Registers.empty, Registers.empty, ⟨0⟩⟩

/-- Store a dictionary made with the next stamp. -/
def store (session : DictionarySession κ ν) (name : String) (dictionary : Dictionary κ ν) :
    DictionarySession κ ν :=
  { session with
    dictionaries := session.dictionaries.set name dictionary
    fresh := session.fresh.succ }

/-- Store a bookmark. -/
def mark (session : DictionarySession κ ν) (target : String) (bookmark : Bookmark κ ν) :
    DictionarySession κ ν :=
  { session with bookmarks := session.bookmarks.set target bookmark }

/-- The size of a new dictionary. -/
def sizeReply (dictionary : Dictionary κ ν) : Reply κ ν := .number dictionary.size

variable [Ord κ] [Footprint κ] [Footprint ν]

/-- The bookmark that a dictionary issues on request. -/
def request (session : DictionarySession κ ν) (dictionary : Dictionary κ ν) :
    BookmarkRequest κ → Step (Option (Bookmark κ ν))
  | .start => do
      let bookmark ← dictionary.startBookmark
      pure (some bookmark)
  | .finish => pure (some dictionary.endBookmark)
  | .offset offset => do
      let bookmark ← dictionary.bookmarkAt offset
      pure (some bookmark)
  | .key key => do
      let bookmark ← dictionary.bookmarkOf key
      pure bookmark
  | .after name => do
      let bookmark ← session.bookmarks.need name
      let moved ← dictionary.bookmarkAfter bookmark
      pure (some moved)
  | .before name => do
      let bookmark ← session.bookmarks.need name
      let moved ← dictionary.bookmarkBefore bookmark
      pure (some moved)
  | .jump name steps => do
      let bookmark ← session.bookmarks.need name
      let moved ← dictionary.jump bookmark steps
      pure (some moved)
  | .jumpWithin name steps limitName => do
      let bookmark ← session.bookmarks.need name
      let limit ← session.bookmarks.need limitName
      let moved ← dictionary.jumpWithin bookmark steps limit
      pure moved

/-- Answer a question about a dictionary. -/
def answer [Listed κ] [Listed ν] (session : DictionarySession κ ν)
    (dictionary : Dictionary κ ν) : DictionaryQuery κ → Step (Reply κ ν)
  | .offsetOf name => do
      let bookmark ← session.bookmarks.need name
      let offset ← dictionary.offsetOf bookmark
      pure (.number offset)
  | .distance start stop => do
      let here ← session.bookmarks.need start
      let there ← session.bookmarks.need stop
      let distance ← dictionary.distance here there
      pure (.number distance)
  | .entryAtBookmark name => do
      let bookmark ← session.bookmarks.need name
      let entry ← dictionary.entryAt bookmark
      pure (.entry (some entry))
  | .walk steps backwards => do
      if steps = 0 then Traced.refuse .malformed
      let sights ← dictionary.walk steps backwards
      pure (.sights sights)
  | .extent => pure (.extent dictionary.size dictionary.isEmpty)
  | .find key => do
      let found ← dictionary.get? key
      pure (.value found)
  | .contains key => do
      let found ← dictionary.contains key
      pure (.flag found)
  | .get key => do
      let value ← dictionary.get key
      pure (.value (some value))
  | .min => do
      let entry ← dictionary.min?
      pure (.entry entry)
  | .max => do
      let entry ← dictionary.max?
      pure (.entry entry)
  | .entryAt offset => do
      let entry ← dictionary.entryAt? offset
      pure (.entry entry)
  | .entries => do
      let entries ← dictionary.entries
      pure (.entries entries)
  | .listing lines => do
      let entries ← dictionary.entries
      pure (.text (if lines then Text.mapLines entries else Text.map entries))
  | .sweep pulls => do
      let sweep ← dictionary.tree.sweep
      let pulled ← Sweep.source.pullAll pulls sweep
      pure (.pulledEntries pulled)
  | .drain pulls => do
      let drain ← Drain.ofRoot dictionary.tree.root
      let pulled ← Drain.source.pullAll pulls drain
      pure (.pulledEntries pulled)
  | .keys pulls => do
      let sweep ← dictionary.tree.sweep
      let pulled ← (Sweep.source.map Prod.fst).pullAll pulls sweep
      pure (.pulledKeys pulled)
  | .values pulls => do
      let sweep ← dictionary.tree.sweep
      let pulled ← (Sweep.source.map Prod.snd).pullAll pulls sweep
      pure (.pulledValues pulled)
  | .sweepBetween low high pulls => do
      let sweep ← dictionary.sweepBetween low high
      let pulled ← Sweep.source.pullAll pulls sweep
      pure (.pulledEntries pulled)

/-- Run a command. -/
def step [BEq κ] [BEq ν] [Listed κ] [Listed ν] [SampleKey κ] [SampleValue ν]
    (session : DictionarySession κ ν) :
    DictionaryCommand κ ν → Step (Reply κ ν × DictionarySession κ ν)
  | .create name capacities => do
      let dictionary ← Dictionary.empty capacities session.fresh
      pure (sizeReply dictionary, session.store name dictionary)
  | .build name entries => do
      let dictionary ← Dictionary.ofList entries session.fresh
      pure (sizeReply dictionary, session.store name dictionary)
  | .buildDistinct name entries => do
      let dictionary ← Dictionary.ofDistinct entries session.fresh
      pure (sizeReply dictionary, session.store name dictionary)
  | .buildSample name run => do
      let entries ← run.entries
      let dictionary ← Dictionary.ofDistinct entries session.fresh
      pure (sizeReply dictionary, session.store name dictionary)
  | .copy name source => do
      let dictionary ← session.dictionaries.need source
      pure (sizeReply dictionary,
        { session with dictionaries := session.dictionaries.set name dictionary })
  | .insert name key value => do
      let dictionary ← session.dictionaries.need name
      let (old, written) ← dictionary.insert key value session.fresh
      pure (.written (.ofOption old) written.size, session.store name written)
  | .extend name entries => do
      let dictionary ← session.dictionaries.need name
      let (_, written) ← dictionary.insertAll session.fresh entries
      pure (.written .nothing written.size, session.store name written)
  | .fill name run => do
      let dictionary ← session.dictionaries.need name
      let entries ← run.entries
      let (replaced, written) ← dictionary.insertAll session.fresh entries
      pure (.written (.count replaced) written.size, session.store name written)
  | .change name key value => do
      let dictionary ← session.dictionaries.need name
      let changed ← dictionary.change key (fun old => value.getD old) session.fresh
      match changed with
      | none => pure (.written .nothing dictionary.size, session)
      | some (old, written) =>
          pure (.written (.value old) written.size, session.store name written)
  | .setValueAt name bookmarkName value => do
      let bookmark ← session.bookmarks.need bookmarkName
      let dictionary ← session.dictionaries.need name
      let (old, written) ← dictionary.setValueAt bookmark value session.fresh
      pure (.written (.value old) written.size, session.store name written)
  | .clear name => do
      let dictionary ← session.dictionaries.need name
      let cleared ← dictionary.cleared session.fresh
      pure (.written .nothing cleared.size, session.store name cleared)
  | .issue name wanted target => do
      let dictionary ← session.dictionaries.need name
      let issued ← session.request dictionary wanted
      match issued with
      | some bookmark => pure (.bookmark bookmark, session.mark target bookmark)
      | none => pure (.nothing, session)
  | .copyBookmark name target => do
      let bookmark ← session.bookmarks.need name
      pure (.bookmark bookmark, session.mark target bookmark)
  | .orderBookmarks first second => do
      let left ← session.bookmarks.need first
      let right ← session.bookmarks.need second
      let order ← left.order right
      pure (.bookmarkOrder order, session)
  | .equalBookmarks first second => do
      let left ← session.bookmarks.need first
      let right ← session.bookmarks.need second
      let order ← left.order right
      pure (.flag order.isEq, session)
  | .same first second => do
      let left ← session.dictionaries.need first
      let right ← session.dictionaries.need second
      pure (.flag (left.sameRoot right), session)
  | .equal first second => do
      let left ← session.dictionaries.need first
      let right ← session.dictionaries.need second
      let answer ← left.equal right
      pure (.flag answer, session)
  | .ask name query => do
      let dictionary ← session.dictionaries.need name
      let reply ← session.answer dictionary query
      pure (reply, session)

end DictionarySession

end CountedBTree
