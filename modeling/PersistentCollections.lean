import PersistentCollections.ArrivalMap
import PersistentCollections.Edit
import PersistentCollections.HashMap.Basic
import PersistentCollections.HashMap.Digit
import PersistentCollections.HashMap.Draft
import PersistentCollections.HashMap.Node
import PersistentCollections.HashMap.Node.Erase
import PersistentCollections.HashMap.Node.Insert
import PersistentCollections.HashMap.Walk
import PersistentCollections.Json.Magnitude
import PersistentCollections.Json.Reader
import PersistentCollections.Json.Scan
import PersistentCollections.Run
import PersistentCollections.Sequence.Basic
import PersistentCollections.Sequence.Cursor
import PersistentCollections.Sequence.Draft
import PersistentCollections.Sequence.Drain
import PersistentCollections.Sequence.Node
import PersistentCollections.Sequence.Node.Insert
import PersistentCollections.Sequence.Node.Join
import PersistentCollections.Sequence.Node.Rebalance
import PersistentCollections.Sequence.Node.Split
import PersistentCollections.Sequence.SizeTable
import PersistentCollections.Sequence.Split
import PersistentCollections.Sequence.Walk
import PersistentCollections.SortedMap.Basic
import PersistentCollections.SortedMap.Range
import PersistentCollections.SortedMap.Tree
import PersistentCollections.SortedMap.Tree.Build
import PersistentCollections.SortedMap.Tree.Erase
import PersistentCollections.SortedMap.Walk
import PersistentCollections.SortedSet
import PersistentCollections.Steps
import PersistentCollections.Text
import PersistentCollections.Proofs.Run
import PersistentCollections.Proofs.Sequence.Shape
import PersistentCollections.Proofs.Sequence.Access
import PersistentCollections.Proofs.Sequence.Append
import PersistentCollections.Proofs.Sequence.Reachable
import PersistentCollections.Proofs.HashMap.Alike
import PersistentCollections.Proofs.HashMap.Branch
import PersistentCollections.Proofs.HashMap.Content
import PersistentCollections.Proofs.HashMap.Course
import PersistentCollections.Proofs.SortedMap.Build
import PersistentCollections.Proofs.SortedMap.Content
import PersistentCollections.Proofs.SortedMap.Reachable
import PersistentCollections.Proofs.SortedMap.Course
import PersistentCollections.Proofs.SortedMap.Queue
import PersistentCollections.Proofs.SortedMap.Construction
import PersistentCollections.Proofs.HashMap.WellFormed
import PersistentCollections.Proofs.HashMap.Conversation
import PersistentCollections.Proofs.HashMap.Twins
import PersistentCollections.Proofs.Sequence.Conversation
import PersistentCollections.Proofs.ArrivalMap.Content
import PersistentCollections.Proofs.BothEnds
import PersistentCollections.Proofs.SortedMap.Walk
import PersistentCollections.Proofs.ArrivalMap.Replay
import PersistentCollections.Proofs.Stamped
import PersistentCollections.Proofs.HashMap.AtHand
import PersistentCollections.Proofs.HashMap.Instance
import PersistentCollections.Proofs.HashMap.Equality
import PersistentCollections.Proofs.HashMap.Merge
import PersistentCollections.Proofs.HashMap.Bounded
import PersistentCollections.Proofs.ArrivalMap.Instance
import PersistentCollections.Proofs.SortedMap.Instance
import PersistentCollections.Proofs.SortedSet
import PersistentCollections.Proofs.Listing
import PersistentCollections.Proofs.Equality
import PersistentCollections.Proofs.Sequence.Positions
import PersistentCollections.Proofs.Sequence.Drain
import PersistentCollections.Proofs.Sequence.Cursor
import PersistentCollections.Proofs.Slices
import PersistentCollections.Proofs.OrderedWalk
import PersistentCollections.Proofs.Sequence.Bisection
import PersistentCollections.Proofs.SortedMap.Levels
import PersistentCollections.Proofs.Sequence.Overflow
import PersistentCollections.Proofs.Sequence.Doubling
import PersistentCollections.Proofs.Sequence.Words
