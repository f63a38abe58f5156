import QYInterview.DetectCycle
import QYInterview.ReverseList
import QYInterview.IntersectionNode
import QYInterview.KthFromEnd
import QYInterview.RemoveElements
import QYInterview.CreatList
import QYInterview.SortedSquares
import QYInterview.NearlyFather
import QYInterview.ThreeSum
import QYInterview.ReplaceSpace
import QYInterview.ReverseWords
import QYInterview.Compress
import QYInterview.BinarySearch
import QYInterview.CreatBinaryTree
import QYInterview.MaxSubArray
import QYInterview.TwoSum
import QYInterview.ObjC.Swizzle
import QYInterview.ObjC.KVOSpec
import QYInterview.ObjC.CellLoading
import QYInterview.ObjC.DependentRequests
import QYInterview.ClimbStairs
import QYInterview.Lib.Powers
import QYInterview.RepeatedSubstring
import QYInterview.QuickSort
import QYInterview.Lib.Gapped
import QYInterview.ShellSort
import QYInterview.Lib.Collect
import QYInterview.FourSum
import QYInterview.Lib.Pairing
import QYInterview.MergeSort
import QYInterview.Lib.Inversions
import QYInterview.PartSort
import QYInterview.RepeatNumber
import QYInterview.Lib.Window
import QYInterview.LongestSubstring
import QYInterview.GenerateMatrix
import QYInterview.MergeArrays
import QYInterview.ReverseBetween
import QYInterview.SwapPairs
import QYInterview.Lib.SortedEnd
import QYInterview.BubbleSort
import QYInterview.SelectSort
import QYInterview.InsertSort
import QYInterview.SearchInsert
import QYInterview.FirstBadVersion
import QYInterview.ReplaceSpaceInPlace
import QYInterview.MinSubArrayLen
import QYInterview.Graphemes
import QYInterview.Lib.Mirror
import QYInterview.ReverseVowels
import QYInterview.ReverseStr
import QYInterview.Lib.Alone
import QYInterview.DeleteDuplicates
import QYInterview.RemoveElementArray
import QYInterview.Lib.TwoValued
import QYInterview.DivingBoard
import QYInterview.Partition
import QYInterview.Lib.Probe
import QYInterview.ObjC.MethodCache
import QYInterview.ObjC.CacheMemo
import QYInterview.ObjC.MethodLists
import QYInterview.ObjC.Messenger
import QYInterview.ObjC.MessengerEdits
import QYInterview.ObjC.MessengerRuns
import QYInterview.ObjC.MessengerSwizzle
import QYInterview.Lib.OpenTable
import QYInterview.ObjC.WeakTable
import QYInterview.ObjC.WeakVariables
import QYInterview.Lib.Interleaving
import QYInterview.GCD.Semaphore
import QYInterview.GCD.GroupState
import QYInterview.GCD.Group
import QYInterview.GCD.GroupRuns
import QYInterview.Lib.Drain
import QYInterview.ObjC.AutoreleasePage
import QYInterview.ObjC.AutoreleasePool
import QYInterview.ObjC.AutoreleaseRelease
import QYInterview.ObjC.AutoreleaseRuns
import QYInterview.ObjC.RetainCount
import QYInterview.ObjC.RetainRuns
import QYInterview.ObjC.Associations
import QYInterview.ObjC.AssociationTable
import QYInterview.ObjC.AssociationRuns
import QYInterview.ObjC.Sync
import QYInterview.ObjC.SyncTurn
import QYInterview.ObjC.SyncRuns
