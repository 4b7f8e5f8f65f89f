import NotVK.Library.LabelledRun
import NotVK.Library.JSONDecoding
import NotVK.Library.TransactionalStore
import NotVK.Library.ListDiff
import NotVK.Library.IndexShift
import NotVK.Library.IndexedChange
import NotVK.Library.SwapRemoval
import NotVK.Library.SignedVarint
import NotVK.Library.FormURLEncoding
import NotVK.Library.EqualParts
import NotVK.Library.FifoQueue
import NotVK.Library.AnchoredPlacement
import NotVK.Library.NotificationCenter
import NotVK.App.URLSession
import NotVK.App.AsyncOperation
import NotVK.App.OperationState
import NotVK.App.OperationData
import NotVK.App.GetDataRequest
import NotVK.App.FriendsPhotosLayouts
import NotVK.App.PhotoTiling
import NotVK.App.PhotoContentSize
import NotVK.App.NewsModel
import NotVK.App.NewsFeedShape
import NotVK.App.NewsRoundTrip
import NotVK.App.RealmOperations
import NotVK.App.RealmRequests
import NotVK.App.FetchedFriends
import NotVK.App.CancelledData
import NotVK.App.SaveData
import NotVK.App.PromiseNetworkService
import NotVK.App.ImageService
import NotVK.App.ImageCache
import NotVK.App.ImageReload
import NotVK.App.RealmLists
import NotVK.App.LoginRedirect
import NotVK.App.LoginParameters
import NotVK.App.LoginDecisions
import NotVK.App.LoginKeyboard
import NotVK.App.URLStorage
import NotVK.App.TokenFidelity
import NotVK.App.SwipeTransition
import NotVK.App.RotationNavigation
import NotVK.App.AnchorPoint
import NotVK.ObjectStore.IndexSet
import NotVK.ObjectStore.IndexSetPositions
import NotVK.ObjectStore.IndexSetMerging
import NotVK.ObjectStore.ChunkedRangeVector
import NotVK.ObjectStore.ChunkedIndexSet
import NotVK.ObjectStore.CollectionChangeBuilder
import NotVK.ObjectStore.ChangeSetMerge
import NotVK.ObjectStore.ChunkedChanges
import NotVK.ObjectStore.LongestMatches
import NotVK.ObjectStore.CalculateChanges
import NotVK.ObjectStore.CollectionNotifier
import NotVK.ObjectStore.DeliveredChanges
import NotVK.App.RealmNotifications
import NotVK.ObjectStore.TransactLog
import NotVK.ObjectStore.ObjectChangeSet
import NotVK.ObjectStore.TransactLogObserver
import NotVK.Library.BoundedReach
import NotVK.ObjectStore.ObservedChanges
import NotVK.ObjectStore.RelatedTables
import NotVK.ObjectStore.DeepChangeChecker
import NotVK.ObjectStore.ListNotifier
import NotVK.ObjectStore.ResultsNotifier
import NotVK.ObjectStore.ObjectNotifier
import NotVK.ObjectStore.IncrementalChangeInfo
