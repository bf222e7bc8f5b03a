import SchemaCodec.Regex.Basic

/-!
Matching. From a set of places an expression reaches another set of places; a search starts from all
places of a text at once. A star goes on until no new place comes up, which happens after at most as
many rounds as the text has places.
-/

namespace SchemaCodec

namespace Place

def start (text : List Char) : Place := ⟨0, [], text⟩

def step? (set : CharClass) (place : Place) : Option Place :=
  match place.after with
  | [] => none
  | c :: rest => if set.accepts c then some ⟨place.offset + 1, c :: place.before, rest⟩ else none

/-- Add the places that are not there yet; gives all places and the new ones. Two places of one text
are the same if their offsets are. -/
def addNew (known : List Place) : List Place → List Place × List Place
  | [] => (known, [])
  | place :: rest =>
    if known.any fun p => p.offset = place.offset then addNew known rest
    else match addNew (place :: known) rest with
      | (all, new) => (all, place :: new)

end Place

namespace Regex

def placeCount : List Place → Nat
  | [] => 0
  | place :: _ => place.offset + place.after.length + 1

/-- Go on from new places until none comes up; the fuel counts the rounds. -/
def closure (step : List Place → List Place) : Nat → List Place → List Place → List Place
  | 0, known, _ => known
  | _ + 1, known, [] => known
  | rounds + 1, known, fresh =>
    match Place.addNew known (step fresh) with
    | (all, new) => closure step rounds all new

/-- The places that a match from one of the given places can end at. -/
def ends : Regex → List Place → List Place
  | .empty, places => places
  | .charClass set, places => places.filterMap (Place.step? set)
  | .assertion condition, places => places.filter condition.holds
  | .sequence first second, places => second.ends (first.ends places)
  | .alternative left right, places => (Place.addNew (left.ends places) (right.ends places)).1
  | .star inner, places => closure inner.ends (placeCount places) places places

def placesFrom (offset : Nat) (before : List Char) : List Char → List Place
  | [] => [⟨offset, before, []⟩]
  | c :: rest => ⟨offset, before, c :: rest⟩ :: placesFrom (offset + 1) (c :: before) rest

def isFoundInChars (regex : Regex) (text : List Char) : Bool :=
  !(regex.ends (placesFrom 0 [] text)).isEmpty

def isFoundIn (regex : Regex) (text : String) : Bool :=
  regex.isFoundInChars text.toList

end Regex

end SchemaCodec
